import ChunkCache.Proofs.Cache.Contents
import ChunkCache.Proofs.Cache.References

/-!
Rules for cached chunks. What a cache itself does to a payload is little: it makes empty ones,
merges records into them, forks them and marks them as saved. A rule that survives these, and what
the callers bring in, holds of every cached chunk at any time.
-/

namespace ChunkCache

open Function

variable {n : Nat} {v v' : View n} {i : Fin n} {a : Address} {p : Payload}

/-- What is to hold of the payload under an address, which may depend on whether its slot is
queued. -/
structure Rule where
  Holds : Address → Payload → (queued : Prop) → Prop
  queue : ∀ {a p} {q q' : Prop}, (q → q') → Holds a p q → Holds a p q'
  save : ∀ {a p q}, Holds a p q → Holds a p.saved False
  create : ∀ {a fresh p}, Payload.ofAddress a fresh = .ok p → Holds a p.admitted False
  load : ∀ {a p p' q own record}, Holds a p q → p.tracker.notices = 0 →
    p.load own record = .ok p' → Holds a p'.forgetNotices (q ∨ 0 < p'.tracker.notices)
  fork : ∀ {a b m q}, a.kind = .attributes → Holds b (.attributes m) q →
    Holds a (Cache.forkedPayload m).forgetNotices True

/-- What a caller brings in keeps the rule. -/
def Rule.Allows (r : Rule) : Call → Prop
  | .holdOrPut a p => r.Holds a p.admitted (p.isDirty = true)
  | .access t act => ∀ p p' q, r.Holds t.address p q → p.tracker.notices = 0 → act p = .ok p' →
      r.Holds t.address p'.forgetNotices (q ∨ 0 < p'.tracker.notices)
  | .forkFrom _ source t a _ => ∀ m, a.kind = .attributes → source.readAttributes t = .ok m →
      r.Holds a (Cache.forkedPayload m).forgetNotices True
  | _ => True

/-- Every cached chunk keeps the rule, and no notice of a change is waiting in it. -/
def View.Obeys (v : View n) (r : Rule) : Prop :=
  ∀ i a, v.tenant i = some a →
    ∃ p, v.payload i = some p ∧ p.tracker.notices = 0 ∧ r.Holds a p (i ∈ v.pending)

namespace View.Obeys

variable {r : Rule}

theorem empty {hash : Address → UInt64} : (View.empty n hash).Obeys r := fun _ _ hi => by cases hi

theorem holds (h : v.Obeys r) (hi : v.tenant i = some a) (hp : v.payload i = some p) :
    p.tracker.notices = 0 ∧ r.Holds a p (i ∈ v.pending) := by
  obtain ⟨q, hq, hholds⟩ := h i a hi
  obtain rfl := Option.some.inj (hp.symm.trans hq)
  exact hholds

/-- Marks may change, and slots may be queued. -/
theorem keep (h : v.Obeys r) (htenant : v'.tenant = v.tenant) (hpayload : v'.payload = v.payload)
    (hpending : ∀ i ∈ v.pending, i ∈ v'.pending) : v'.Obeys r := by
  intro i a hi
  rw [htenant] at hi
  obtain ⟨p, hp, hquiet, hholds⟩ := h i a hi
  exact ⟨p, by rw [hpayload, hp], hquiet, r.queue (hpending i) hholds⟩

/-- A payload that keeps the rule may be put into a slot. -/
theorem put (h : v.Obeys r) (htenant : v'.tenant = update v.tenant i (some a))
    (hpayload : v'.payload = update v.payload i (some p))
    (hpending : ∀ {j}, j ≠ i → (j ∈ v'.pending ↔ j ∈ v.pending)) (hquiet : p.tracker.notices = 0)
    (hp : r.Holds a p (i ∈ v'.pending)) : v'.Obeys r := by
  intro j b hj
  rw [htenant] at hj
  rw [hpayload]
  rcases eq_or_ne j i with rfl | hij
  · rw [update_self, Option.some.injEq] at hj
    subst hj
    exact ⟨p, update_self .., hquiet, hp⟩
  · rw [update_of_ne hij] at hj
    obtain ⟨q, hq, hquiet', hholds⟩ := h j b hj
    exact ⟨q, by rw [update_of_ne hij, hq], hquiet', r.queue (hpending hij).2 hholds⟩

theorem vacate (h : v.Obeys r) : (v.vacate i).Obeys r := by
  intro j b hj
  obtain ⟨hij, hj⟩ := tenant_vacate.1 hj
  obtain ⟨p, hp, hquiet, hholds⟩ := h j b hj
  exact ⟨p, (update_of_ne hij ..).trans hp, hquiet,
    r.queue (fun hqueued => (List.mem_erase_of_ne hij).2 hqueued) hholds⟩

theorem requeue (h : v.Obeys r) : (v.requeue i).Obeys r := by
  refine h.keep rfl rfl fun j hj => ?_
  by_cases hij : j = i
  · rw [hij]
    exact List.mem_cons_self
  · exact List.mem_cons_of_mem _ ((List.mem_erase_of_ne hij).2 hj)

theorem save (h : v.Obeys r) (ht : v.Tidy) : v.save.Obeys r := by
  intro i a hi
  rw [tenant_save] at hi
  obtain ⟨p, hp, hquiet, hholds⟩ := h i a hi
  rw [payload_save ht.pending, hp]
  split
  · exact ⟨p.saved, rfl, Payload.notices_forgetNotices _, r.queue False.elim (r.save hholds)⟩
  · rename_i hout
    exact ⟨p, rfl, hquiet, r.queue (fun hqueued => absurd hqueued hout) hholds⟩

section Runs

variable {sizing : Sizing} {v v' : View sizing.capacity} {i : Fin sizing.capacity}

theorem rewriting (h : v.Obeys r) (hi : v.tenant i = some a)
    (hrun : v.Run (Cache.rewriting i a p) v')
    (hp : r.Holds a p.forgetNotices (i ∈ v.pending ∨ 0 < p.tracker.notices)) : v'.Obeys r := by
  obtain ⟨hbrings, hpending⟩ := Cache.brings_rewriting hi hrun
  exact h.put hbrings.tenant hbrings.payload hbrings.pending p.notices_forgetNotices
    (r.queue hpending.2 hp)

theorem admission (h : v.Obeys r) (hrun : v.Run (Cache.admission i a p) v')
    (hp : r.Holds a p.admitted (p.isDirty = true)) : v'.Obeys r := by
  unfold Cache.admission at hrun
  split at hrun
  · obtain ⟨-, -, rfl⟩ := hrun
    refine h.put View.tenant_queue View.payload_queue (fun hj => ?_) p.notices_admitted ?_
    · simp [View.after, View.mem_pending_queue, hj, View.occupy]
    · exact r.queue (fun _ => View.mem_pending_queue.2 (.inl rfl)) hp
  · rename_i hclean
    obtain ⟨-, rfl⟩ := hrun
    exact h.put rfl rfl (fun _ => Iff.rfl) p.notices_admitted
      (r.queue (fun hdirty => absurd hdirty hclean) hp)

end Runs

end View.Obeys

namespace Cache

variable {sizing : Sizing} {c : Cache sizing} {v v' : View sizing.capacity} {r : Rule}
variable {i : Fin sizing.capacity} {a : Address} {fresh : Stamp} {make : Except Error Payload}
variable {es : List (Effect sizing.capacity)}

/-- Every cached chunk keeps the rule. -/
def Obeys (c : Cache sizing) (r : Rule) : Prop := ∃ v, c.Shows v ∧ v.Obeys r

theorem Holding.obeys (h : Holding v a make i es) (hrun : v.Run es v') (hv : v.Obeys r)
    (hmake : ∀ p, make = .ok p → r.Holds a p.admitted (p.isDirty = true)) : v'.Obeys r := by
  cases h with
  | cached hi =>
      obtain ⟨-, rfl⟩ := hrun
      exact hv.keep rfl rfl fun _ hj => hj
  | brought p ha hp => exact hv.admission hrun (hmake p hp)

/-- An empty chunk may be brought in under any rule. -/
theorem Holding.obeys_empty (h : Holding v a (Payload.ofAddress a fresh) i es) (hrun : v.Run es v')
    (hv : v.Obeys r) : v'.Obeys r :=
  h.obeys hrun hv fun _ hp => r.queue False.elim (r.create hp)

section Outcomes

variable (h : c.Shows v) (hv : v.Obeys r)

include h hv

theorem Shows.obeys_retain : (c.retain i).Obeys r :=
  ⟨_, h.retain, hv.keep rfl rfl fun _ hj => hj⟩

theorem Shows.obeys_queue : (c.queueForSave i).Obeys r :=
  ⟨_, h.queueForSave, hv.keep View.tenant_queue View.payload_queue
    fun _ hj => View.mem_pending_queue.2 (.inr hj)⟩

theorem Held.obeys {o : Outcome (Fin sizing.capacity) sizing} (ho : Held c v a make o)
    (hmake : ∀ p, make = .ok p → r.Holds a p.admitted (p.isDirty = true)) : o.2.Obeys r := by
  cases ho with
  | ok i es c' v' hes hrun hshows => exact ⟨v', hshows, hes.obeys hrun hv hmake⟩
  | error f hf => exact ⟨v, h, hv⟩

theorem Looked.obeys {o : Outcome (Option Handle) sizing} (ho : Looked c v a o) :
    o.2.Obeys r := by
  cases ho with
  | cached i hi => exact h.obeys_retain hv
  | missing ha => exact ⟨v, h, hv⟩
  | noBuckets hbuckets => exact ⟨v, h, hv⟩

theorem Answered.obeys {s : RecordStore} {o : Outcome Requested sizing}
    (ho : Answered c v s a o) : o.2.Obeys r := by
  cases ho with
  | cached i hi => exact h.obeys_retain hv
  | stored record ha hread => exact ⟨v, h, hv⟩
  | unread e ha hread => exact ⟨v, h, hv⟩
  | noBuckets hbuckets => exact ⟨v, h, hv⟩

theorem Accessed.obeys {α : Type} {t : Handle} {act : Payload → Except Error (α × Payload)}
    {o : Outcome α sizing} (ho : Accessed c v t act o)
    (hact : ∀ p answer p' q, r.Holds t.address p q → p.tracker.notices = 0 →
      act p = .ok (answer, p') →
      r.Holds t.address p'.forgetNotices (q ∨ 0 < p'.tracker.notices)) : o.2.Obeys r := by
  cases ho with
  | refused i p e hi hp he => exact ⟨v, h, hv⟩
  | stale e ht => exact ⟨v, h, hv⟩
  | done i p p' answer c' v' hi hp hdone hrun hshows =>
      obtain ⟨hquiet, hholds⟩ := hv.holds hi.2 hp
      exact ⟨v', hshows, hv.rewriting hi.2 hrun (hact _ _ _ _ hholds hquiet hdone)⟩

theorem Accessed.obeys_map {t : Handle} {act : Payload → Except Error Payload}
    {o : Outcome Unit sizing} (ho : Accessed c v t (fun p => (act p).map (((), ·))) o)
    (hact : ∀ p p' q, r.Holds t.address p q → p.tracker.notices = 0 → act p = .ok p' →
      r.Holds t.address p'.forgetNotices (q ∨ 0 < p'.tracker.notices)) : o.2.Obeys r := by
  refine ho.obeys h hv fun p answer p' q hholds hquiet hp' => ?_
  cases hp : act p with
  | error e =>
      rw [hp] at hp'
      cases hp'
  | ok p'' =>
      rw [hp] at hp'
      cases hp'
      exact hact p _ q hholds hquiet hp

theorem Completed.obeys {record : Bytes} {o : Outcome Handle sizing}
    (ho : Completed c v a record fresh o) : o.2.Obeys r := by
  cases ho with
  | failed f hf => exact ⟨v, h, hv⟩
  | undone i es p e c' u hes hheld hp hload hshows =>
      refine ⟨_, hshows,
        (hes.obeys_empty hheld hv).keep View.tenant_release View.payload_release ?_⟩
      intro j hj
      rwa [View.pending_release]
  | done i es p p' c' u v' hes hheld hp hload hrun hshows =>
      have hu : u.Obeys r := hes.obeys_empty hheld hv
      have hi : u.tenant i = some a := hes.tenant hheld
      obtain ⟨hquiet, hholds⟩ := hu.holds hi hp
      exact ⟨v', hshows, hu.rewriting hi hrun (r.load hholds hquiet hload)⟩

theorem Fetched.obeys {s : RecordStore} {o : Outcome (Option Handle) sizing}
    (ho : Fetched c v s a fresh o) : o.2.Obeys r := by
  cases ho with
  | cached i hi => exact h.obeys_retain hv
  | completed record ha hread hcomplete => exact hcomplete.obeys h hv
  | missing ha hread => exact ⟨v, h, hv⟩
  | unread e ha hread => exact ⟨v, h, hv⟩
  | noBuckets hbuckets => exact ⟨v, h, hv⟩

theorem Forked.obeys {origin : Sizing} {source : Cache origin} {t : Handle}
    {o : Outcome Handle sizing} (ho : Forked c v source t a fresh o)
    (hfork : ∀ m, a.kind = .attributes → source.readAttributes t = .ok m →
      r.Holds a (forkedPayload m).forgetNotices True) : o.2.Obeys r := by
  cases ho with
  | failed f hf => exact ⟨v, h, hv⟩
  | done i es m c' u v' hkind hm hes hheld hrun hshows =>
      have hu : u.Obeys r := hes.obeys_empty hheld hv
      refine ⟨v', hshows, hu.rewriting (hes.tenant hheld) hrun ?_⟩
      exact r.queue (fun _ => .inr Nat.one_pos) (hfork m hkind hm)

theorem Released.obeys {asked : Fin sizing.capacity → Prop} {o : Outcome (Option Int) sizing}
    (ho : Released c asked o) : o.2.Obeys r := by
  cases ho with
  | absent hi => exact ⟨v, h, hv⟩
  | aborted f hi => exact ⟨v, h, hv⟩
  | released i hi =>
      refine ⟨_, h.release, hv.keep View.tenant_release View.payload_release fun j hj => ?_⟩
      rwa [View.pending_release]

theorem Discarded.obeys {t : Handle} {o : Outcome Unit sizing} (ho : Discarded c v t o) :
    o.2.Obeys r := by
  cases ho with
  | done i c' hi hmark hshows => exact ⟨_, hshows, hv.vacate⟩
  | stale e ht => exact ⟨v, h, hv⟩
  | referenced i e c' hi hmark hshows =>
      refine ⟨_, hshows, ?_⟩
      split
      · exact hv.requeue
      · exact hv

/-- The attributes behind a handle of the cache itself keep the rule. -/
theorem Shows.holds_of_readAttributes {t : Handle} {m : AttributeMap}
    (hm : c.readAttributes t = .ok m) : ∃ q, r.Holds t.address (.attributes m) q := by
  obtain ⟨i, hi, hp⟩ := h.current_of_read (read_of_readAttributes hm)
  exact ⟨_, (hv.holds hi.2 hp).2⟩

theorem Shows.obeys_perform {call : Call} (hcall : r.Allows call) :
    (c.perform call).2.Obeys r := by
  have hself : c.Obeys r := ⟨v, h, hv⟩
  have hempty : ∀ a fresh p, Payload.ofAddress a fresh = .ok p →
      r.Holds a p.admitted (p.isDirty = true) := fun a fresh p hp =>
    r.queue False.elim (r.create hp)
  cases call with
  | holdCached a =>
      rw [Cache.perform, snd_grantIf]
      exact (h.holdCached a).obeys h hv
  | holdOrCreate a fresh =>
      rw [Cache.perform, snd_grant]
      exact (h.hold _).obeys h hv (hempty a fresh)
  | holdOrPut a p =>
      rw [Cache.perform, snd_grant]
      exact (h.hold (.ok p)).obeys h hv (by rintro q ⟨⟩; exact hcall)
  | request s a =>
      have hrequest := (h.request s a).obeys h hv
      rw [Cache.perform]
      generalize c.request s a = o at hrequest ⊢
      rcases o with ⟨_ | _ | _, c'⟩ <;> exact hrequest
  | complete a record fresh =>
      rw [Cache.perform, snd_grant]
      exact (h.complete a record fresh).obeys h hv
  | holdOrFetch s a fresh =>
      rw [Cache.perform, snd_grantIf]
      exact (h.holdOrFetch s a fresh).obeys h hv
  | fork t a fresh =>
      rw [Cache.perform, snd_grant]
      refine (h.fork c t a fresh).obeys h hv fun m hkind hm => ?_
      obtain ⟨q, hholds⟩ := h.holds_of_readAttributes hv hm
      exact r.fork hkind hholds
  | forkFrom origin source t a fresh =>
      rw [Cache.perform, snd_grant]
      exact (h.fork source t a fresh).obeys h hv hcall
  | access t act => exact (h.access t _).obeys_map h hv hcall
  | load t buffer fresh =>
      exact (h.load t buffer fresh).obeys_map h hv fun p p' q => r.load
  | releaseOf a =>
      rw [Cache.perform, snd_giveBack]
      exact (h.releaseOf a).obeys h hv
  | releaseHandle t =>
      rw [Cache.perform, snd_giveBack]
      exact (h.releaseHandle t).obeys h hv
  | requestSave t =>
      rw [Cache.perform]
      rcases h.requestSave t with ⟨i, hi, heq⟩ | ⟨ht, heq⟩
      · rw [heq]
        exact h.obeys_queue hv
      · rw [heq]
        exact hself
  | requestSaveAt number =>
      rw [Cache.perform]
      rcases requestSaveAt_cases c number with ⟨i, heq⟩ | heq
      · rw [heq]
        exact h.obeys_queue hv
      · rw [heq]
        exact hself
  | discard t =>
      have hdiscard := (h.discard t).obeys h hv
      rw [Cache.perform]
      generalize c.discard t = o at hdiscard ⊢
      rcases o with ⟨_ | _, c'⟩ <;> exact hdiscard
  | save s => exact ⟨v.save, (h.save s).1, hv.save h.tidy⟩

end Outcomes

end Cache

namespace Books

variable {sizing : Sizing} {b : Books sizing} {r : Rule}

theorem obeys_opened (sizing : Sizing) (hash : Address → UInt64) (r : Rule) :
    (opened sizing hash).cache.Obeys r :=
  ⟨_, .emptyWith hash, .empty⟩

/-- After calls that are allowed every cached chunk keeps the rule. -/
theorem obeys_run {calls : List Call} (h : b.cache.Obeys r)
    (hcalls : ∀ call ∈ calls, r.Allows call) : (b.run calls).cache.Obeys r := by
  induction calls generalizing b with
  | nil => exact h
  | cons call calls ih =>
      obtain ⟨v, hshows, hv⟩ := h
      obtain ⟨hcall, hcalls⟩ := List.forall_mem_cons.1 hcalls
      exact ih (b := b.after call) (hshows.obeys_perform hv hcall) hcalls

end Books

/-- A chunk that keeps the rule can be read, and what is read keeps it. -/
theorem Cache.Obeys.read {sizing : Sizing} {c : Cache sizing} {r : Rule}
    {i : Fin sizing.capacity} (h : c.Obeys r) (hi : c.tenant? i = some a) :
    ∃ p, c.read ⟨i.val, a⟩ = .ok p ∧ p.tracker.notices = 0 ∧
      r.Holds a p (c.pending.contains i = true) := by
  obtain ⟨v, hshows, hv⟩ := h
  rw [hshows.tenant] at hi
  obtain ⟨p, hp, hread⟩ := hshows.read_eq (t := ⟨i.val, a⟩) ⟨rfl, hi⟩
  obtain ⟨hquiet, hholds⟩ := hv.holds hi hp
  exact ⟨p, hread, hquiet, r.queue (hshows.pending.contains_iff i).2 hholds⟩

end ChunkCache
