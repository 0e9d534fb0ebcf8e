import ChunkCache.Proofs.Cache.Release
import ChunkCache.Proofs.Cache.Save
import ChunkCache.Proofs.Mirror

namespace ChunkCache.Cache

open Function

variable {sizing : Sizing} {c : Cache sizing} {v v' : View sizing.capacity}
variable {i : Fin sizing.capacity} {a : Address} {p : Payload} {t : Handle} {fresh : Stamp}
variable {make : Except Error Payload} {es : List (Effect sizing.capacity)}
variable {s : RecordStore} {contents saved : Address → Content} {held : Address → Nat}

section Runs

theorem brings_rewriting (hi : v.tenant i = some a) (hrun : v.Run (rewriting i a p) v') :
    v.Brings v' i a p.forgetNotices ∧
      (i ∈ v'.pending ↔ i ∈ v.pending ∨ 0 < p.tracker.notices) := by
  have hwrite : v.Brings (v.write i p.forgetNotices) i a p.forgetNotices := .write hi
  unfold rewriting at hrun
  split at hrun
  · rename_i hnotices
    obtain ⟨-, -, rfl⟩ := hrun
    constructor
    · exact hwrite.trans (.queue hi (update_self ..))
    · simp [View.after, View.mem_pending_queue, hnotices]
  · rename_i hnotices
    obtain ⟨-, rfl⟩ := hrun
    constructor
    · exact hwrite
    · simp [View.after, View.write, hnotices]

theorem brings_admission (h : v.Exact held) (ht : v.Tidy) (hrun : v.Run (admission i a p) v') :
    v.Brings v' i a p.admitted ∧ (i ∈ v'.pending ↔ p.isDirty = true) := by
  have hidle : v.mark i = 0 := ht.mem_idle.1 (List.mem_of_getLast? hrun.1.1)
  have hout : i ∉ v.pending := (h.of_idle hidle).2
  have hoccupy : v.Brings (v.occupy i a p.admitted) i a p.admitted := .occupy h hidle
  unfold admission at hrun
  split at hrun
  · rename_i hdirty
    obtain ⟨-, -, rfl⟩ := hrun
    constructor
    · exact hoccupy.trans (.queue (update_self ..) (update_self ..))
    · simp [View.after, View.mem_pending_queue, hdirty]
  · rename_i hdirty
    obtain ⟨-, rfl⟩ := hrun
    constructor
    · exact hoccupy
    · simp [View.after, View.occupy, hdirty, hout]

theorem Holding.brings (h : Holding v a make i es) (hrun : v.Run es v')
    (hm : v.Mirrors s contents saved) (hexact : v.Exact held) (ht : v.Tidy) :
    ∃ p, v.Brings v' i a p := by
  cases h with
  | cached hi =>
      obtain ⟨-, rfl⟩ := hrun
      obtain ⟨p, hp, -⟩ := hm.cached hi
      exact ⟨p, .retain hi hp⟩
  | brought p ha hmake => exact ⟨p.admitted, (brings_admission hexact ht hrun).1⟩

/-- A chunk that is brought in for one that is not cached is empty and clean. -/
theorem Holding.brings_empty (h : Holding v a (Payload.ofAddress a fresh) i es)
    (ha : ∀ j, v.tenant j ≠ some a) (hrun : v.Run es v') (hexact : v.Exact held) (ht : v.Tidy) :
    ∃ p, v.Brings v' i a p ∧ i ∉ v'.pending ∧ p.content = .empty a ∧ p.Regular a ∧
      p.tracker = { listening := true } := by
  cases h with
  | cached hi => exact absurd hi (ha i)
  | brought p ha hmake =>
      obtain ⟨hcontent, hregular, htracker⟩ := Payload.ofAddress_eq hmake
      obtain ⟨hbrings, hpending⟩ := brings_admission hexact ht hrun
      have hclean : p.isDirty = false := by rw [Payload.isDirty, htracker]
      rw [hclean] at hpending
      refine ⟨p.admitted, hbrings, fun hi => Bool.false_ne_true (hpending.1 hi), ?_, ?_, ?_⟩
      · simpa [Payload.admitted, Payload.listen, Payload.forgetNotices] using hcontent
      · simpa [Payload.admitted, Payload.listen, Payload.forgetNotices] using hregular
      · simp [Payload.admitted, Payload.listen, Payload.forgetNotices, Tracker.listen, htracker]

end Runs

/-- The ways in which the saved form of `p` can be brought back as the chunk of `a`. -/
inductive Revived (c : Cache sizing) (v : View sizing.capacity) (a : Address) (p : Payload) :
    Outcome Handle sizing → Prop
  | found (i : Fin sizing.capacity) (q : Payload) (c' : Cache sizing) (v' : View sizing.capacity)
      (hbrings : v.Brings v' i a q) (hshows : c'.Shows v') (hout : i ∉ v'.pending)
      (hcontent : q.content = p.content) (hregular : q.Regular a)
      (htracker : q.tracker = { listening := true }) : Revived c v a p (.ok ⟨i.val, a⟩, c')
  | noBuckets (hbuckets : sizing.buckets = 0) : Revived c v a p (.error (.aborted .noBuckets), c)
  | full (hidle : v.idle = []) :
      Revived c v a p (.error (.refused (.cacheFull sizing.capacity 0)), c)

/-- A record that is fetched is merged into an empty chunk, which brings the content back. -/
theorem Completed.revives {o : Outcome Handle sizing} (ho : Completed c v a p.encode fresh o)
    (hexact : v.Exact held) (ht : v.Tidy) (ha : ∀ j, v.tenant j ≠ some a) (hp : p.Regular a)
    (hfits : p.content.Fits) : Revived c v a p o := by
  cases ho with
  | failed f hf =>
      cases hf with
      | noBuckets hbuckets => exact .noBuckets hbuckets
      | full _ _ hmake hidle => exact .full hidle
      | refused e _ hmake =>
          obtain ⟨q, hq⟩ := hp.ofAddress fresh
          rw [hq] at hmake
          cases hmake
  | undone i es r e c' u hes hheld hr hload hshows =>
      obtain ⟨q, hbrings, -, hcontent, hregular, -⟩ := hes.brings_empty ha hheld hexact ht
      obtain rfl := Option.some.inj (hbrings.payload_self.symm.trans hr)
      obtain ⟨q', hq', -⟩ := Payload.load_encode hcontent hregular hp hfits (.unknown fresh)
      rw [hq'] at hload
      cases hload
  | done i es r q' c' u v' hes hheld hr hload hrun hshows =>
      obtain ⟨q, hbrings, hout, hcontent, hregular, htracker⟩ :=
        hes.brings_empty ha hheld hexact ht
      obtain rfl := Option.some.inj (hbrings.payload_self.symm.trans hr)
      obtain ⟨q'', hq'', hcontent', hregular', htracker'⟩ :=
        Payload.load_encode hcontent hregular hp hfits (.unknown fresh)
      obtain rfl := Except.ok.inj (hq''.symm.trans hload)
      obtain ⟨hbrings', hpending⟩ := brings_rewriting (hes.tenant hheld) hrun
      rw [htracker', htracker] at hpending
      refine .found i _ c' v' (hbrings.trans hbrings') hshows ?_ ?_ ?_ ?_
      · rw [hpending]
        exact not_or.2 ⟨hout, Nat.lt_irrefl 0⟩
      · rw [Payload.forgetNotices, Payload.content_mapTracker, hcontent']
      · rw [Payload.forgetNotices, Payload.regular_mapTracker]
        exact hregular'
      · rw [Payload.forgetNotices, Payload.tracker_mapTracker, htracker', htracker]

/-- What becomes of the cache does not depend on what an access answers. -/
theorem snd_access_map {α : Type} (act : Payload → Except Error (α × Payload)) :
    (c.access t fun p => ((act p).map Prod.snd).map (((), ·))).2 = (c.access t act).2 := by
  unfold access
  cases c.payload t with
  | error e => rfl
  | ok found =>
      dsimp only
      cases act found.2.2 <;> rfl

theorem Shows.current_of_read (h : c.Shows v) (hread : c.read t = .ok p) :
    ∃ i, v.Current t i ∧ v.payload i = some p := by
  by_cases ht : ∃ i, v.Current t i
  · obtain ⟨i, hi⟩ := ht
    obtain ⟨k, q, hpayload, -, hq⟩ := h.payload_eq hi
    rw [read, hpayload] at hread
    cases hread
    exact ⟨i, hi, hq⟩
  · obtain ⟨e, he⟩ := h.payload_stale fun i hi => ht ⟨i, hi⟩
    rw [read, he] at hread
    cases hread

theorem read_of_readAttributes {m : AttributeMap} (h : c.readAttributes t = .ok m) :
    c.read t = .ok (.attributes m) := by
  unfold readAttributes at h
  cases hread : c.read t with
  | error e =>
      rw [hread] at h
      cases h
  | ok p =>
      rw [hread] at h
      cases p with
      | attributes m' =>
          cases h
          rfl
      | _ => cases h

/-- A running store takes the batch, and then has all of its records. -/
theorem Shows.save_running (h : c.Shows v) (hrunning : s.outage = none) : ∃ c', c'.Shows v.save ∧
    c.save s = (⟨v.records.length, if v.records.isEmpty then none else
        some (RecordStore.batchOf v.records), true⟩, c',
      { s with records := s.records.insertMany v.records }) := by
  obtain ⟨c', hshows, hsave⟩ := h.save_eq s
  refine ⟨c', hshows, ?_⟩
  rw [hsave]
  split
  · rename_i hempty
    rw [List.isEmpty_iff.1 hempty]
    rfl
  · rw [RecordStore.write_batchOf hrunning View.separable_records]

/-- The cached chunks have these contents, and the store has what was saved last. -/
def Mirrored (c : Cache sizing) (s : RecordStore) (contents saved : Address → Content) : Prop :=
  ∃ v, c.Shows v ∧ v.Mirrors s contents saved

inductive Recalled (c : Cache sizing) (v : View sizing.capacity) (s : RecordStore) (a : Address)
    (contents saved : Address → Content) : Outcome (Option Handle) sizing → Prop
  | found (i : Fin sizing.capacity) (c' : Cache sizing) (v' : View sizing.capacity)
      (hi : v'.tenant i = some a) (hshows : c'.Shows v') (hmirrors : v'.Mirrors s contents saved) :
      Recalled c v s a contents saved (.ok (some ⟨i.val, a⟩), c')
  | missing (hcontent : contents a = .empty a) (ha : ∀ j, v.tenant j ≠ some a)
      (hrecord : s.record? a.toKey = none) : Recalled c v s a contents saved (.ok none, c)
  | noBuckets (hbuckets : sizing.buckets = 0) :
      Recalled c v s a contents saved (.error (.aborted .noBuckets), c)
  | full (hidle : v.idle = []) :
      Recalled c v s a contents saved (.error (.refused (.cacheFull sizing.capacity 0)), c)

section Outcomes

variable {m : Mutation} {own : Ownership} (h : c.Shows v) (hexact : v.Exact held)
variable (hm : v.Mirrors s contents saved)

include h hm

theorem Shows.mirrored_release : (c.release i).2.Mirrored s contents saved := by
  refine ⟨_, h.release, hm.keep View.tenant_release View.payload_release fun j hj => ?_⟩
  rw [View.pending_release]
  exact hj

theorem Shows.mirrored_queue : (c.queueForSave i).Mirrored s contents saved :=
  ⟨_, h.queueForSave, hm.keep View.tenant_queue View.payload_queue
    fun _ hj => View.mem_pending_queue.2 (.inr hj)⟩

theorem Shows.mirrored_retain : (c.retain i).Mirrored s contents saved :=
  ⟨_, h.retain, hm.keep rfl rfl fun _ hi => hi⟩

theorem Shows.mirrored_save {saved' : Address → Content}
    (hqueued : ∀ a, v.Queued a → saved' a = contents a)
    (hother : ∀ a, ¬v.Queued a → saved' a = saved a) :
    (c.save s).2.1.Mirrored (c.save s).2.2 contents saved' := by
  obtain ⟨c', hshows, hsave⟩ := h.save_running hm.running
  rw [hsave]
  exact ⟨v.save, hshows, hm.save h.tidy hqueued hother⟩

theorem Looked.mirrored {o : Outcome (Option Handle) sizing} (ho : Looked c v a o) :
    o.2.Mirrored s contents saved := by
  cases ho with
  | cached i hi => exact h.mirrored_retain hm
  | missing ha => exact ⟨v, h, hm⟩
  | noBuckets hbuckets => exact ⟨v, h, hm⟩

theorem Recalled.mirrored {o : Outcome (Option Handle) sizing}
    (ho : Recalled c v s a contents saved o) : o.2.Mirrored s contents saved := by
  cases ho with
  | found i c' v' hi hshows hmirrors => exact ⟨v', hshows, hmirrors⟩
  | missing hcontent ha hrecord => exact ⟨v, h, hm⟩
  | noBuckets hbuckets => exact ⟨v, h, hm⟩
  | full hidle => exact ⟨v, h, hm⟩

theorem Released.mirrored {asked : Fin sizing.capacity → Prop} {o : Outcome (Option Int) sizing}
    (ho : Released c asked o) : o.2.Mirrored s contents saved := by
  cases ho with
  | released i hi => exact h.mirrored_release hm
  | absent hi => exact ⟨v, h, hm⟩
  | aborted f hi => exact ⟨v, h, hm⟩

theorem Discarded.mirrored {o : Outcome Unit sizing} (ho : Discarded c v t o) :
    o.2.Mirrored s
      (if o.1.isOk then update contents t.address (saved t.address) else contents) saved := by
  cases ho with
  | done i c' hi hmark hshows => exact ⟨_, hshows, hm.vacate h.tidy hi.2⟩
  | stale e ht => exact ⟨v, h, hm⟩
  | referenced i e c' hi hmark hshows =>
      refine ⟨_, hshows, ?_⟩
      split
      · refine hm.keep rfl rfl fun j hj => ?_
        by_cases hij : j = i
        · rw [hij]
          exact List.mem_cons_self
        · exact List.mem_cons_of_mem _ ((List.mem_erase_of_ne hij).2 hj)
      · exact hm

theorem Accessed.mirrored {o : Outcome (Except Error Unit) sizing}
    (ho : Accessed c v t (m.act own) o)
    (hfits : o.1.isOk → (m.apply (contents t.address)).Fits) :
    o.2.Mirrored s
      (if o.1.isOk then update contents t.address (m.apply (contents t.address)) else contents)
      saved := by
  cases ho with
  | refused i p e hi hp hact => exact ⟨v, h, hm⟩
  | stale e ht => exact ⟨v, h, hm⟩
  | done i p p' answer c' v' hi hp hact hrun hshows =>
      obtain ⟨q, hq, hreflects⟩ := hm.cached hi.2
      obtain rfl := Option.some.inj (hp.symm.trans hq)
      obtain ⟨hbrings, hpending⟩ := brings_rewriting hi.2 hrun
      have hbecomes := Mutation.act_becomes hreflects.regular hact
      rw [hreflects.content_eq] at hbecomes
      obtain ⟨hreflects', hsame⟩ := hbecomes.reflects hreflects (h.quiet hp) hpending.2
      refine ⟨v', hshows, hm.put hbrings hshows.tidy hreflects' ?_ (hfits rfl)⟩
      intro hout
      rw [hsame.resolve_left hout]
      exact hm.settled_of_tenant h.tidy hi.2 fun hi' => hout (hpending.2 (.inl hi'))

include hexact

/-- An empty chunk may be brought in for one that is not stored. -/
theorem Held.mirrored {o : Outcome (Fin sizing.capacity) sizing}
    (ho : Held c v a (Payload.ofAddress a fresh) o)
    (hnew : (∀ i, v.tenant i ≠ some a) → s.record? a.toKey = none) :
    o.2.Mirrored s contents saved := by
  cases ho with
  | error f hf => exact ⟨v, h, hm⟩
  | ok i es c' v' hes hrun hshows =>
      by_cases hcached : ∃ j, v.tenant j = some a
      · obtain ⟨j, hj⟩ := hcached
        cases hes with
        | brought p ha hmake => exact absurd hj (ha j)
        | cached hi =>
            obtain ⟨-, rfl⟩ := hrun
            exact ⟨_, hshows, hm.keep rfl rfl fun _ hj => hj⟩
      · have ha : ∀ j, v.tenant j ≠ some a := fun j hj => hcached ⟨j, hj⟩
        have hsettled := hm.settled_of_absent ha
        obtain ⟨p, hbrings, -, hcontent, hregular, htracker⟩ :=
          hes.brings_empty ha hrun hexact h.tidy
        have hempty : p.content = contents a := by
          rw [hcontent, hsettled, (hm.stored a).eq_empty (hnew ha)]
        refine ⟨v', hshows, ?_⟩
        rw [← update_eq_self a contents]
        exact hm.put hbrings hshows.tidy (.of_clean hempty hregular htracker) (fun _ => hsettled)
          (hm.fits a)

theorem Completed.recalled {record : Bytes} {o : Outcome Handle sizing}
    (ho : Completed c v a record fresh o) (ha : ∀ j, v.tenant j ≠ some a)
    (hrecord : s.record? a.toKey = some record) :
    Recalled c v s a contents saved (o.1.map some, o.2) := by
  have hsettled := hm.settled_of_absent ha
  obtain ⟨q, rfl, hq, hregular, hfits⟩ := (hm.stored a).of_record hrecord
  rw [← hq] at hfits
  cases ho.revives hexact h.tidy ha hregular hfits with
  | noBuckets hbuckets => exact .noBuckets hbuckets
  | full hidle => exact .full hidle
  | found i r c' v' hbrings hshows hout hcontent hregular' htracker =>
      have hi : v'.tenant i = some a := hbrings.tenant_self
      refine .found i c' v' hi hshows ?_
      rw [← update_eq_self a contents]
      refine hm.put hbrings hshows.tidy (.of_clean ?_ hregular' htracker) (fun _ => hsettled)
        (hm.fits a)
      rw [hcontent, hq, hsettled]

theorem Fetched.recalled {o : Outcome (Option Handle) sizing} (ho : Fetched c v s a fresh o) :
    Recalled c v s a contents saved o := by
  have hread : s.read a.toKey = .ok (s.record? a.toKey) := by rw [RecordStore.read, hm.running]
  cases ho with
  | cached i hi => exact .found i _ (v.retain i) hi h.retain (hm.keep rfl rfl fun _ hj => hj)
  | noBuckets hbuckets => exact .noBuckets hbuckets
  | missing ha hnone =>
      have hrecord : s.record? a.toKey = none := Except.ok.inj (hread.symm.trans hnone)
      refine .missing ?_ ha hrecord
      rw [hm.settled_of_absent ha, (hm.stored a).eq_empty hrecord]
  | completed record ha hsome hcomplete =>
      exact hcomplete.recalled h hexact hm ha (Except.ok.inj (hread.symm.trans hsome))
  | unread e ha herror =>
      rw [hread] at herror
      cases herror

theorem Forked.mirrored {o : Outcome Handle sizing} (ho : Forked c v c t a fresh o) :
    o.2.Mirrored s (if o.1.isOk then update contents a (contents t.address) else contents)
      saved := by
  cases ho with
  | failed f hf => exact ⟨v, h, hm⟩
  | done i es m c' u v' hkind hread hes hheld hrun hshows =>
      obtain ⟨p, hbrings⟩ := hes.brings hheld hm hexact h.tidy
      have hi : u.tenant i = some a := hbrings.tenant_self
      obtain ⟨hbrings', hpending⟩ := brings_rewriting hi hrun
      have hqueued : i ∈ v'.pending := hpending.2 (.inr Nat.one_pos)
      have hcontent : Content.attributes m.values = contents t.address := by
        obtain ⟨j, hj, hp⟩ := h.current_of_read (read_of_readAttributes hread)
        obtain ⟨q, hq, hreflects⟩ := hm.cached hj.2
        obtain rfl := Option.some.inj (hp.symm.trans hq)
        exact hreflects.content_eq
      refine ⟨v', hshows, hm.put (hbrings.trans hbrings') hshows.tidy ?_
        (fun hout => absurd hqueued hout) (hm.fits t.address)⟩
      exact ⟨hcontent, hkind, rfl, fun _ => hqueued⟩

end Outcomes

end ChunkCache.Cache
