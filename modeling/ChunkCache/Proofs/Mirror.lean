import ChunkCache.Proofs.Exact
import ChunkCache.Proofs.Mutation
import ChunkCache.Proofs.RecordStore

/-!
Contents by address, wherever they lie. A chunk that is cached has its content in its slot; one that
is not queued, cached or not, is in the store as it was saved last. Evicting a chunk that is not
queued therefore loses nothing, and the effects of a cache keep this up.
-/

namespace ChunkCache

open Function

variable {n : Nat} {v v' v'' : View n} {i j : Fin n} {a b : Address} {p q : Payload}
variable {s : RecordStore} {contents saved saved' : Address → Content} {content : Content}
variable {held : Address → Nat}

/-- The payload has a listener and the content of the chunk of `a`; if it is dirty its slot is
queued. -/
structure Payload.Reflects (a : Address) (content : Content) (queued : Prop) (p : Payload) :
    Prop where
  content_eq : p.content = content
  regular : p.Regular a
  listening : p.tracker.listening = true
  queued : p.isDirty = true → queued

/-- The store has a record of the chunk of `a` with the given content. An empty chunk needs none. -/
def RecordStore.Keeps (s : RecordStore) (a : Address) (content : Content) : Prop :=
  s.record? a.toKey = none ∧ content = .empty a ∨
    ∃ p : Payload, s.record? a.toKey = some p.encode ∧ p.content = content ∧ p.Regular a ∧
      content.Fits

namespace Payload

theorem Reflects.of_clean {queued : Prop} (hcontent : p.content = content) (hp : p.Regular a)
    (htracker : p.tracker = { listening := true }) : p.Reflects a content queued where
  content_eq := hcontent
  regular := hp
  listening := by rw [htracker]
  queued hdirty := by
    rw [isDirty, htracker] at hdirty
    cases hdirty

/-- A change that is reported has the slot queued; without one the content is as before. -/
theorem Becomes.reflects {old : Content} {queued queued' : Prop} (h : Becomes a content p q)
    (hp : p.Reflects a old queued) (hquiet : p.tracker.notices = 0)
    (hqueued : queued ∨ 0 < q.tracker.notices → queued') :
    q.forgetNotices.Reflects a content queued' ∧ (queued' ∨ content = old) := by
  have hlistening : q.tracker.listening = true := by
    rcases h.tracker with htracker | ⟨htracker, -⟩
    · rw [htracker, Tracker.touch]
      split
      · exact hp.listening
      · exact hp.listening
    · rw [htracker]
      exact hp.listening
  have hreported : queued' ∨ q.isDirty = p.isDirty ∧ content = p.content := by
    rcases h.tracker with htracker | ⟨htracker, hcontent⟩
    · left
      by_cases hdirty : p.isDirty = true
      · exact hqueued (.inl (hp.queued hdirty))
      · apply hqueued
        right
        rw [htracker, Tracker.notices_touch, hp.listening, hquiet]
        simp [show p.tracker.dirty = false from Bool.not_eq_true _ ▸ hdirty]
    · exact .inr ⟨by rw [isDirty, htracker, isDirty], hcontent⟩
  constructor
  · constructor
    · rw [forgetNotices, content_mapTracker, h.content_eq]
    · rw [forgetNotices, regular_mapTracker]
      exact h.regular
    · simpa [forgetNotices] using hlistening
    · rw [isDirty_forgetNotices]
      intro hdirty
      rcases hreported with hqueued | ⟨hsame, -⟩
      · exact hqueued
      · exact hqueued (.inl (hp.queued (hsame ▸ hdirty)))
  · exact hreported.imp_right fun hsame => hsame.2.trans hp.content_eq

end Payload

namespace RecordStore.Keeps

theorem fits (h : s.Keeps a content) : content.Fits := by
  rcases h with ⟨-, rfl⟩ | ⟨p, -, -, -, hfits⟩
  · exact Content.fits_empty a
  · exact hfits

theorem eq_empty (h : s.Keeps a content) (hrecord : s.record? a.toKey = none) :
    content = .empty a := by
  rcases h with ⟨-, hcontent⟩ | ⟨p, hp, -⟩
  · exact hcontent
  · rw [hp] at hrecord
    cases hrecord

theorem of_record {record : Bytes} (h : s.Keeps a content)
    (hrecord : s.record? a.toKey = some record) :
    ∃ p : Payload, record = p.encode ∧ p.content = content ∧ p.Regular a ∧ content.Fits := by
  rcases h with ⟨hnone, -⟩ | ⟨p, hp, h⟩
  · rw [hnone] at hrecord
    cases hrecord
  · rw [hp, Option.some.injEq] at hrecord
    exact ⟨p, hrecord.symm, h⟩

end RecordStore.Keeps

namespace View

def Queued (v : View n) (a : Address) : Prop := ∃ i, v.tenant i = some a ∧ i ∈ v.pending

/-- The cached chunks have these contents, and the store has what was saved last. -/
structure Mirrors (v : View n) (s : RecordStore) (contents saved : Address → Content) : Prop where
  cached : ∀ {i a}, v.tenant i = some a →
    ∃ p, v.payload i = some p ∧ p.Reflects a (contents a) (i ∈ v.pending)
  settled : ∀ {a}, ¬v.Queued a → contents a = saved a
  running : s.outage = none
  stored : ∀ a, s.Keeps a (saved a)
  fits : ∀ a, (contents a).Fits

/-- Slot `i` comes to hold the chunk `p` of `a`. The rest stays, and no queued chunk is evicted. -/
structure Brings (v v' : View n) (i : Fin n) (a : Address) (p : Payload) : Prop where
  tenant : v'.tenant = update v.tenant i (some a)
  payload : v'.payload = update v.payload i (some p)
  pending : ∀ {j}, j ≠ i → (j ∈ v'.pending ↔ j ∈ v.pending)
  kept : i ∈ v.pending → v.tenant i = some a

namespace Brings

theorem write (hi : v.tenant i = some a) : v.Brings (v.write i p) i a p where
  tenant := by
    rw [← hi, update_eq_self]
    rfl
  payload := rfl
  pending _ := Iff.rfl
  kept _ := hi

theorem retain (hi : v.tenant i = some a) (hp : v.payload i = some p) :
    v.Brings (v.retain i) i a p where
  tenant := by
    rw [← hi, update_eq_self]
    rfl
  payload := by
    rw [← hp, update_eq_self]
    rfl
  pending _ := Iff.rfl
  kept _ := hi

theorem queue (hi : v.tenant i = some a) (hp : v.payload i = some p) :
    v.Brings (v.queue i) i a p where
  tenant := by rw [tenant_queue, ← hi, update_eq_self]
  payload := by rw [payload_queue, ← hp, update_eq_self]
  pending hj := by simp [mem_pending_queue, hj]
  kept _ := hi

/-- An idle slot is not queued, so whatever is evicted from it is saved. -/
theorem occupy (h : v.Exact held) (hi : v.mark i = 0) : v.Brings (v.occupy i a p) i a p where
  tenant := rfl
  payload := rfl
  pending _ := Iff.rfl
  kept hqueued := absurd hqueued (h.of_idle hi).2

theorem trans (h : v.Brings v' i a p) (h' : v'.Brings v'' i a q) : v.Brings v'' i a q where
  tenant := by rw [h'.tenant, h.tenant, update_idem]
  payload := by rw [h'.payload, h.payload, update_idem]
  pending hj := (h'.pending hj).trans (h.pending hj)
  kept := h.kept

theorem tenant_self (h : v.Brings v' i a p) : v'.tenant i = some a := by
  rw [h.tenant, update_self]

theorem payload_self (h : v.Brings v' i a p) : v'.payload i = some p := by
  rw [h.payload, update_self]

end Brings

section Records

variable {e : Bytes × Bytes}

theorem record_eq_some_iff : v.record i = some e ↔
    ∃ a p, v.tenant i = some a ∧ v.payload i = some p ∧ e = (a.toKey, p.encode) := by
  unfold record
  rw [Option.bind_eq_some_iff]
  constructor
  · rintro ⟨a, ha, he⟩
    obtain ⟨p, hp, rfl⟩ := Option.map_eq_some_iff.1 he
    exact ⟨a, p, ha, hp, rfl⟩
  · rintro ⟨a, p, ha, hp, rfl⟩
    exact ⟨a, ha, by rw [hp, Option.map_some]⟩

theorem mem_records : e ∈ v.records ↔ ∃ i ∈ v.pending, v.record i = some e := by
  simp only [records, List.mem_filterMap, List.mem_reverse]

theorem queued_of_mem_records (h : a.toKey ∈ v.records.map Prod.fst) : v.Queued a := by
  obtain ⟨e, he, hkey⟩ := List.mem_map.1 h
  obtain ⟨i, hi, hrecord⟩ := mem_records.1 he
  obtain ⟨b, p, hb, -, rfl⟩ := record_eq_some_iff.1 hrecord
  obtain rfl := Address.toKey_injective hkey
  exact ⟨i, hb, hi⟩

/-- No key is written twice, as no address has two slots. -/
theorem nodup_records (ht : v.Tidy) : (v.records.map Prod.fst).Nodup := by
  apply List.pairwise_map.2
  apply List.pairwise_filterMap.2
  refine (List.nodup_reverse.2 ht.pending).imp ?_
  intro i j hij e he e' he' hkey
  obtain ⟨a, p, ha, -, rfl⟩ := record_eq_some_iff.1 he
  obtain ⟨b, q, hb, -, rfl⟩ := record_eq_some_iff.1 he'
  obtain rfl := Address.toKey_injective hkey
  exact hij (ht.distinct ha hb)

theorem separable_records : RecordStore.Separable v.records := by
  intro e he
  obtain ⟨i, -, hrecord⟩ := mem_records.1 he
  obtain ⟨a, p, -, -, rfl⟩ := record_eq_some_iff.1 hrecord
  exact ⟨a.not_mem_toKey, p.not_mem_encode⟩

end Records

namespace Mirrors

theorem empty {hash : Address → UInt64} {placement : Placement} :
    (View.empty n hash).Mirrors { placement } .empty .empty where
  cached h := by cases h
  settled _ := rfl
  running := rfl
  stored _ := .inl ⟨rfl, rfl⟩
  fits := Content.fits_empty

theorem fits_update (h : v.Mirrors s contents saved) (hfits : content.Fits) (b : Address) :
    (update contents a content b).Fits := by
  by_cases hba : b = a
  · rw [hba, update_self]
    exact hfits
  · rw [update_of_ne hba]
    exact h.fits b

theorem settled_of_absent (h : v.Mirrors s contents saved) (ha : ∀ i, v.tenant i ≠ some a) :
    contents a = saved a := by
  apply h.settled
  rintro ⟨i, hi, -⟩
  exact ha i hi

theorem settled_of_tenant (h : v.Mirrors s contents saved) (ht : v.Tidy) (hi : v.tenant i = some a)
    (hout : i ∉ v.pending) : contents a = saved a := by
  apply h.settled
  rintro ⟨j, hj, hj'⟩
  obtain rfl := ht.distinct hi hj
  exact hout hj'

/-- Marks may change, and slots may be queued. -/
theorem keep (h : v.Mirrors s contents saved) (htenant : v'.tenant = v.tenant)
    (hpayload : v'.payload = v.payload) (hpending : ∀ i ∈ v.pending, i ∈ v'.pending) :
    v'.Mirrors s contents saved where
  cached {i a} hi := by
    rw [htenant] at hi
    obtain ⟨p, hp, hreflects⟩ := h.cached hi
    refine ⟨p, by rw [hpayload, hp], hreflects.content_eq, hreflects.regular,
      hreflects.listening, ?_⟩
    exact fun hdirty => hpending i (hreflects.queued hdirty)
  settled hqueued := by
    apply h.settled
    rintro ⟨i, hi, hi'⟩
    exact hqueued ⟨i, by rw [htenant, hi], hpending i hi'⟩
  running := h.running
  stored := h.stored
  fits := h.fits

/-- A chunk may be brought in, or changed, if it is queued or just as it is saved. -/
theorem put (h : v.Mirrors s contents saved) (hbrings : v.Brings v' i a p) (ht' : v'.Tidy)
    (hp : p.Reflects a content (i ∈ v'.pending)) (hsettled : i ∉ v'.pending → content = saved a)
    (hfits : content.Fits) : v'.Mirrors s (update contents a content) saved := by
  have hi : v'.tenant i = some a := hbrings.tenant_self
  constructor
  · intro j b hj
    rcases eq_or_ne j i with rfl | hij
    · obtain rfl := Option.some.inj (hi.symm.trans hj)
      refine ⟨p, hbrings.payload_self, ?_⟩
      rwa [update_self]
    · have hba : b ≠ a := by
        rintro rfl
        exact hij (ht'.distinct hj hi)
      rw [hbrings.tenant, update_of_ne hij] at hj
      obtain ⟨q, hq, hreflects⟩ := h.cached hj
      refine ⟨q, by rw [hbrings.payload, update_of_ne hij, hq], ?_⟩
      rwa [update_of_ne hba, hbrings.pending hij]
  · intro b hqueued
    rcases eq_or_ne b a with rfl | hba
    · rw [update_self]
      exact hsettled fun hi' => hqueued ⟨i, hi, hi'⟩
    · rw [update_of_ne hba]
      apply h.settled
      rintro ⟨j, hj, hj'⟩
      have hij : j ≠ i := by
        rintro rfl
        exact hba (Option.some.inj (hj.symm.trans (hbrings.kept hj')))
      refine hqueued ⟨j, ?_, (hbrings.pending hij).2 hj'⟩
      rw [hbrings.tenant, update_of_ne hij, hj]
  · exact h.running
  · exact h.stored
  · exact h.fits_update hfits

theorem vacate (h : v.Mirrors s contents saved) (ht : v.Tidy) (hi : v.tenant i = some a) :
    (v.vacate i).Mirrors s (update contents a (saved a)) saved := by
  constructor
  · intro j b hj
    obtain ⟨hij, hj⟩ := tenant_vacate.1 hj
    have hba : b ≠ a := by
      rintro rfl
      exact hij (ht.distinct hj hi)
    obtain ⟨p, hp, hreflects⟩ := h.cached hj
    refine ⟨p, (update_of_ne hij ..).trans hp, ?_⟩
    rw [update_of_ne hba]
    exact ⟨hreflects.content_eq, hreflects.regular, hreflects.listening,
      fun hdirty => (List.mem_erase_of_ne hij).2 (hreflects.queued hdirty)⟩
  · intro b hqueued
    by_cases hba : b = a
    · rw [hba, update_self]
    · rw [update_of_ne hba]
      apply h.settled
      rintro ⟨j, hj, hj'⟩
      have hij : j ≠ i := by
        rintro rfl
        exact hba (Option.some.inj (hj.symm.trans hi))
      exact hqueued ⟨j, tenant_vacate.2 ⟨hij, hj⟩, (List.mem_erase_of_ne hij).2 hj'⟩
  · exact h.running
  · exact h.stored
  · exact h.fits_update (h.stored a).fits

/-- After a save the queued chunks are stored as they are, and the others as before. -/
theorem save (h : v.Mirrors s contents saved) (ht : v.Tidy)
    (hqueued : ∀ a, v.Queued a → saved' a = contents a)
    (hother : ∀ a, ¬v.Queued a → saved' a = saved a) :
    v.save.Mirrors { s with records := s.records.insertMany v.records } contents saved' := by
  constructor
  · intro i a hi
    rw [tenant_save] at hi
    obtain ⟨p, hp, hreflects⟩ := h.cached hi
    rw [payload_save ht.pending, hp]
    split
    · refine ⟨p.saved, rfl, ?_⟩
      constructor
      · rw [← hreflects.content_eq]
        simp [Payload.saved, Payload.forgetNotices]
      · simpa [Payload.saved, Payload.forgetNotices] using hreflects.regular
      · simpa [Payload.saved, Payload.forgetNotices, Tracker.clear] using hreflects.listening
      · simp [Payload.saved, Payload.isDirty, Payload.forgetNotices, Tracker.clear]
    · rename_i hout
      exact ⟨p, rfl, hreflects.content_eq, hreflects.regular, hreflects.listening,
        fun hdirty => absurd (hreflects.queued hdirty) hout⟩
  · intro a _
    by_cases ha : v.Queued a
    · exact (hqueued a ha).symm
    · rw [hother a ha]
      exact h.settled ha
  · exact h.running
  · intro a
    by_cases ha : v.Queued a
    · obtain ⟨i, hi, hi'⟩ := ha
      obtain ⟨p, hp, hreflects⟩ := h.cached hi
      rw [hqueued a ⟨i, hi, hi'⟩]
      refine .inr ⟨p, ?_, hreflects.content_eq, hreflects.regular, h.fits a⟩
      apply SortedMap.get?_insertMany_of_mem _ (nodup_records ht)
      exact mem_records.2 ⟨i, hi', record_eq_some_iff.2 ⟨a, p, hi, hp, rfl⟩⟩
    · have hrecord : (s.records.insertMany v.records).get? a.toKey = s.record? a.toKey :=
        SortedMap.get?_insertMany_of_not_mem _ fun hmem => ha (queued_of_mem_records hmem)
      rw [hother a ha, RecordStore.Keeps, RecordStore.record?, hrecord]
      exact h.stored a
  · exact h.fits

end Mirrors

end View

end ChunkCache
