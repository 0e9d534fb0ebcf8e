import ChunkCache.Proofs.Cache.Rule
import ChunkCache.Proofs.Operation

namespace ChunkCache

open Function

namespace Payload.Suits

variable {a : Address} {p : Payload}

theorem admitted (h : p.Suits a) : p.admitted.Suits a :=
  (h.mapTracker (·.listen true)).forgetNotices

theorem saved (h : p.Suits a) : p.saved.Suits a := (h.mapTracker Tracker.clear).forgetNotices

theorem fork {m : AttributeMap} (h : (Payload.attributes m).Built)
    (hkind : a.kind = .attributes) : (Cache.forkedPayload m).Suits a where
  admissible hgenerator := by
    rw [hkind] at hgenerator
    cases hgenerator
  kind_eq := hkind.symm
  built := h.track fun _ => ({ listening := true } : Tracker).touch

end Payload.Suits

/-- Every cached payload suits its address. -/
def Rule.suits : Rule where
  Holds a p _ := p.Suits a
  queue _ h := h
  save h := h.saved
  create h := (Payload.Suits.ofAddress h).admitted
  load h _ hload := (h.load hload).forgetNotices
  fork hkind h := (Payload.Suits.fork h.built hkind).forgetNotices

/-- The call puts no payload of another kind into the place of a cached one. -/
def Call.KeepsKinds : Call → Prop
  | .holdOrPut a p => p.Suits a
  | .access _ act => ∀ p p', p.Built → act p = .ok p' → p'.kind = p.kind ∧ p'.Built
  | .forkFrom _ source t _ _ => ∀ m, source.readAttributes t = .ok m → (Payload.attributes m).Built
  | _ => True

theorem Call.KeepsKinds.allowed {call : Call} (h : call.KeepsKinds) : Rule.suits.Allows call := by
  cases call with
  | holdOrPut a p => exact Payload.Suits.admitted h
  | access t act =>
      rintro p p' q hsuits - hact
      obtain ⟨hkind, hbuilt⟩ := h p p' hsuits.built hact
      have hsuits' : p'.Suits t.address := ⟨hsuits.admissible, hkind.trans hsuits.kind_eq, hbuilt⟩
      exact hsuits'.forgetNotices
  | forkFrom origin source t a fresh =>
      intro m hkind hm
      exact (Payload.Suits.fork (h m hm) hkind).forgetNotices
  | _ => trivial

/-- A fresh cache with a bucket that fetches the chunk of `a` has it with this content, clean and
not queued. -/
def RecordStore.Restores (s : RecordStore) (a : Address) (content : Content) : Prop :=
  ∀ (sizing : Sizing) hash fresh, 0 < sizing.buckets → ∃ t d q,
    (Cache.emptyWith sizing hash).holdOrFetch s a fresh = (.ok (some t), d) ∧ t.address = a ∧
      d.read t = .ok q ∧ q.content = content ∧ q.isDirty = false ∧ d.pendingCount = 0

open Cache

theorem RecordStore.restores {s : RecordStore} {a : Address} {p : Payload}
    (hrunning : s.outage = none) (hrecord : s.record? a.toKey = some p.encode) (hp : p.Regular a)
    (hfits : p.content.Fits) : s.Restores a p.content := by
  intro sizing hash fresh hbuckets
  have hread : s.read a.toKey = .ok (some p.encode) := by rw [RecordStore.read, hrunning, hrecord]
  have hshows : (emptyWith sizing hash).Shows (View.empty sizing.capacity hash) := .emptyWith hash
  have habsent : ∀ j, (View.empty sizing.capacity hash).tenant j ≠ some a := fun j hj => by cases hj
  have hrevived := (hshows.complete a p.encode fresh).revives .empty .empty habsent hp hfits
  rw [hshows.holdOrFetch_stored hbuckets habsent hread]
  generalize (emptyWith sizing hash).complete a p.encode fresh = o at hrevived ⊢
  cases hrevived with
  | noBuckets hnone => omega
  | full hidle =>
      have hcapacity : sizing.capacity = 0 := by simpa [View.empty] using hidle
      simp [Sizing.buckets, hcapacity] at hbuckets
  | found i q d w hbrings hshows hout hcontent hregular htracker =>
      have hi : w.tenant i = some a := hbrings.tenant_self
      obtain ⟨r, hr, hq⟩ := hshows.read_eq (t := ⟨i.val, a⟩) ⟨rfl, hi⟩
      obtain rfl := Option.some.inj (hbrings.payload_self.symm.trans hr)
      have hnone : w.pending = [] := by
        refine List.eq_nil_iff_forall_not_mem.2 fun j hj => ?_
        rcases eq_or_ne j i with rfl | hij
        · exact hout hj
        · exact List.not_mem_nil ((hbrings.pending hij).1 hj)
      refine ⟨_, d, q, rfl, rfl, hq, hcontent, ?_, ?_⟩
      · rw [Payload.isDirty, htracker]
      · rw [hshows.pendingCount_eq, hnone]
        rfl

namespace Cache

variable {sizing : Sizing} {c : Cache sizing} {v : View sizing.capacity}
variable {i : Fin sizing.capacity} {a : Address} {p : Payload} {s : RecordStore}

/-- Slot `i` is queued and holds the chunk `p` of `a`. -/
def Due (c : Cache sizing) (i : Fin sizing.capacity) (a : Address) (p : Payload) : Prop :=
  c.tenant? i = some a ∧ c.pending.contains i = true ∧ c.read ⟨i.val, a⟩ = .ok p

namespace Shows

theorem due_iff (h : c.Shows v) :
    c.Due i a p ↔ v.tenant i = some a ∧ i ∈ v.pending ∧ v.payload i = some p := by
  unfold Due
  rw [h.tenant, h.pending.contains_iff]
  refine and_congr_right fun hi => and_congr_right fun _ => ?_
  obtain ⟨q, hq, hread⟩ := h.read_eq (t := ⟨i.val, a⟩) ⟨rfl, hi⟩
  rw [hq, hread, Except.ok.injEq, Option.some.injEq]

/-- The records of a save are the saved forms of the chunks that are due. -/
theorem mem_records (h : c.Shows v) {e : Bytes × Bytes} :
    e ∈ v.records ↔ ∃ i a p, c.Due i a p ∧ e = (a.toKey, p.save.1) := by
  rw [View.mem_records]
  simp only [View.record_eq_some_iff, h.due_iff]
  constructor
  · rintro ⟨i, hi, a, p, ha, hp, rfl⟩
    exact ⟨i, a, p, ⟨ha, hi, hp⟩, rfl⟩
  · rintro ⟨i, a, p, ⟨ha, hi, hp⟩, rfl⟩
    exact ⟨i, hi, a, p, ha, hp, rfl⟩

theorem length_records (h : c.Shows v) : v.records.length =
    (List.finRange sizing.capacity).countP fun i =>
      c.pending.contains i && (c.tenant? i).isSome := by
  rw [View.records, List.length_filterMap_eq_countP, List.countP_eq_length_filter]
  refine length_eq_countP ((List.nodup_reverse.2 h.tidy.pending).filter _) fun i => ?_
  rw [List.mem_filter, List.mem_reverse, Bool.and_eq_true, h.pending.contains_iff, h.tenant]
  refine and_congr_right fun _ => ?_
  cases hi : v.tenant i with
  | none => simp [View.record, hi]
  | some a =>
      obtain ⟨k, p, -, -, hp⟩ := h.payload_of_tenant hi
      simp [View.record, hi, hp]

/-- A second save has nothing to write and leaves every store alone. -/
theorem save_save (h : c.Shows v) (s s' : RecordStore) :
    ((c.save s).2.1.save s').1 = ⟨0, none, true⟩ ∧ ((c.save s).2.1.save s').2.2 = s' := by
  obtain ⟨c', -, hsave⟩ := (h.save s).1.save_eq s'
  have hnone : v.save.records = [] := by rw [View.records, View.pending_save]; rfl
  rw [hsave, hnone]
  exact ⟨rfl, rfl⟩

theorem record?_save (h : c.Shows v) (hrunning : s.outage = none) (hdue : c.Due i a p) :
    (c.save s).2.2.record? a.toKey = some p.save.1 := by
  obtain ⟨c', -, hsave⟩ := h.save_running hrunning
  rw [hsave]
  exact SortedMap.get?_insertMany_of_mem _ (View.nodup_records h.tidy)
    (h.mem_records.2 ⟨i, a, p, hdue, rfl⟩)

theorem record?_save_of_not_due {key : Bytes} (h : c.Shows v) (hrunning : s.outage = none)
    (hkey : ∀ i a p, c.Due i a p → a.toKey ≠ key) : (c.save s).2.2.record? key = s.record? key := by
  obtain ⟨c', -, hsave⟩ := h.save_running hrunning
  rw [hsave]
  refine SortedMap.get?_insertMany_of_not_mem _ fun hmem => ?_
  obtain ⟨e, he, rfl⟩ := List.mem_map.1 hmem
  obtain ⟨i, a, p, hdue, rfl⟩ := h.mem_records.1 he
  exact hkey i a p hdue rfl

/-- The batch that is handed over is read as what was due, each chunk once. -/
theorem batch_save {batch : Bytes} (h : c.Shows v) (hrunning : s.outage = none)
    (hbatch : (c.save s).1.batch = some batch) :
    RecordStore.ofBatch? batch = some v.records := by
  obtain ⟨c', -, hsave⟩ := h.save_running hrunning
  rw [hsave] at hbatch
  simp only [Option.ite_none_left_eq_some, Option.some.injEq] at hbatch
  rw [← hbatch.2, RecordStore.ofBatch?_batchOf View.separable_records]

end Shows

/-- What is due can be restored from its record. -/
theorem Obeys.restores (h : c.Obeys .suits) (hrunning : s.outage = none) (hdue : c.Due i a p)
    (hfits : p.content.Fits) : (c.save s).2.2.Restores a (p.under a).content := by
  obtain ⟨q, hread, -, hsuits⟩ := h.read hdue.1
  obtain rfl := Except.ok.inj (hdue.2.2.symm.trans hread)
  obtain ⟨v, hshows, -⟩ := h
  have hrecord := hshows.record?_save hrunning hdue
  obtain ⟨c', -, hsave⟩ := hshows.save_running hrunning
  refine RecordStore.restores ?_ ?_ hsuits.regular_under (Payload.fits_under.2 hfits)
  · rw [hsave]
    exact hrunning
  · rw [Payload.encode_under]
    exact hrecord

end Cache

namespace Books

open Cache

/-- After any calls that put no payload of another kind into a cell, a save on a store with any
records hands over one batch of as many records as there are queued slots with a chunk, or none. The
batch is taken, and read as the saved forms of these chunks: afterwards the store has each of them
under its own key, and every other record is as before. A fresh cache brings a chunk back from its
record, clean, not queued and with the prefix of its address; that its counts fit is true of every
payload there is memory for. Nothing is queued then, and a second save leaves the store alone. -/
theorem save_exact (sizing : Sizing) (hash : Address → UInt64) (calls : List Call)
    (hcalls : ∀ call ∈ calls, call.KeepsKinds) :
    let c := ((opened sizing hash).run calls).cache
    ∀ (records : SortedMap Bytes Bytes) (runner : Runner) (placement : Placement),
    let s : RecordStore := { records, runner, placement }
    let saved := (c.save s).1
    let c' := (c.save s).2.1
    let s' := (c.save s).2.2
    (saved.records = (List.finRange sizing.capacity).countP fun i =>
      c.pending.contains i && (c.tenant? i).isSome) ∧
    saved.acknowledged = true ∧ (saved.batch.isSome ↔ 0 < saved.records) ∧
    (∀ batch, saved.batch = some batch → ∃ pairs, RecordStore.ofBatch? batch = some pairs ∧
      pairs.length = saved.records ∧
      ∀ e, e ∈ pairs ↔ ∃ i a p, c.Due i a p ∧ e = (a.toKey, p.save.1)) ∧
    (∀ i a, c.tenant? i = some a → c.pending.contains i = true → ∃ p, c.Due i a p ∧
      s'.record? a.toKey = some p.save.1 ∧
      (p.content.Fits → s'.Restores a (p.under a).content)) ∧
    (∀ key, (∀ i a p, c.Due i a p → a.toKey ≠ key) → s'.record? key = s.record? key) ∧
    c'.pendingCount = 0 ∧
    ∀ s'', (c'.save s'').1 = ⟨0, none, true⟩ ∧ (c'.save s'').2.2 = s'' := by
  intro c records runner placement s saved c' s'
  have hobeys : c.Obeys .suits :=
    obeys_run (obeys_opened sizing hash _) fun call hcall => (hcalls call hcall).allowed
  have ⟨v, h, _⟩ := hobeys
  obtain ⟨d, -, hsave⟩ := h.save_running (s := s) rfl
  have hsaved : saved = ⟨v.records.length, if v.records.isEmpty then none else
      some (RecordStore.batchOf v.records), true⟩ := congrArg Prod.fst hsave
  refine ⟨?_, ?_, ?_, fun batch hbatch => ?_, fun i a hi hqueued => ?_,
    fun key => h.record?_save_of_not_due rfl, h.pendingCount_save s, fun s'' => h.save_save s s''⟩
  · rw [hsaved]
    exact h.length_records
  · rw [hsaved]
  · rw [hsaved]
    cases v.records <;> simp
  · refine ⟨v.records, h.batch_save rfl hbatch, ?_, fun e => h.mem_records⟩
    rw [hsaved]
  · obtain ⟨p, hread, -⟩ := hobeys.read hi
    have hdue : c.Due i a p := ⟨hi, hqueued, hread⟩
    exact ⟨p, hdue, h.record?_save rfl hdue, hobeys.restores rfl hdue⟩

/-- A changed timeline, and attributes that hold nothing and are to be saved all the same. The third
slot is queued too but has no chunk. -/
def mixed : List Call :=
  [ .holdOrCreate first 0,
    .access ⟨0, first⟩ fun p => .ok (p.operate [.mutate (.insert 10) (.unknown 0)]),
    .holdOrPut (.attributes 0 0 1) (.attributes (.empty 0)), .requestSaveAt 1, .requestSaveAt 2 ]

theorem mixed_keepsKinds : ∀ call ∈ mixed, call.KeepsKinds := by
  simp only [mixed, List.forall_mem_cons]
  refine ⟨trivial, fun p p' hp hact => ?_, .ofAddress rfl, trivial, trivial, List.forall_mem_nil _⟩
  rw [← Except.ok.inj hact]
  exact ⟨hp.kind_operate _, hp.operateAll _⟩

/-- A store that held another record has both chunks after a save, each to be restored. -/
theorem save_exact_mixed :
    let c := ((opened ⟨3, 1⟩ fun _ => 0).run mixed).cache
    let s : RecordStore := { records := SortedMap.empty.insert [7] [8] }
    (c.save s).1.records = 2 ∧ (c.save s).2.2.record? [7] = some [8] ∧
      (c.save s).2.2.Restores first (.timeline [10]) ∧
      (c.save s).2.2.Restores (.attributes 0 0 1) (.attributes .empty) := by
  intro c s
  obtain ⟨hrecords, -, -, -, hdue, -⟩ := save_exact ⟨3, 1⟩ (fun _ => 0) mixed mixed_keepsKinds
    (SortedMap.empty.insert [7] [8]) .inline .sameThread
  have hrestores : ∀ i a content, c.tenant? i = some a → c.pending.contains i = true →
      content.Fits → (c.read ⟨i.val, a⟩).map (fun p => (p.under a).content) = .ok content →
      (c.save s).2.2.Restores a content := by
    rintro i a content hi hqueued hfits hcontent
    obtain ⟨p, ⟨-, -, hread⟩, -, hrestores⟩ := hdue i a hi hqueued
    rw [hread, Except.map, Except.ok.injEq] at hcontent
    subst hcontent
    exact hrestores (Payload.fits_under.1 hfits)
  refine ⟨hrecords.trans (by decide +kernel), by decide +kernel, ?_, ?_⟩
  · exact hrestores 0 first _ (by decide +kernel) (by decide +kernel) (by decide)
      (by decide +kernel)
  · exact hrestores 1 _ _ (by decide +kernel) (by decide +kernel) (by decide) (by decide +kernel)

/-- The generator of prefix 5 is replaced by one of another prefix and is to be saved. -/
def reprefixed : List Call :=
  [ .holdOrCreate (.generator 5) 0,
    .access ⟨0, .generator 5⟩ fun p =>
      (p.onGenerator fun _ => ((), { idPrefix := 9 })).map Prod.snd,
    .requestSave ⟨0, .generator 5⟩ ]

/-- The saved form of a generator does not hold its prefix, so another prefix than that of the
address is not restored. -/
theorem prefix_not_restored :
    let c := ((opened ⟨1, 4⟩ Address.hash).run reprefixed).cache
    let restored := (Cache.empty ⟨1, 4⟩).holdOrFetch (c.save {}).2.2 (.generator 5) 0
    (∀ call ∈ reprefixed, call.KeepsKinds) ∧ (c.save {}).1.records = 1 ∧
      (c.read ⟨0, .generator 5⟩).map Payload.content = .ok (.generator 9 0) ∧
      restored.1 = .ok (some ⟨0, .generator 5⟩) ∧
      (restored.2.read ⟨0, .generator 5⟩).map Payload.content = .ok (.generator 5 0) := by
  intro c restored
  refine ⟨?_, by decide +kernel, by decide +kernel, by decide +kernel, by decide +kernel⟩
  simp only [reprefixed, List.forall_mem_cons]
  refine ⟨trivial, fun p p' _ hact => ?_, trivial, List.forall_mem_nil _⟩
  cases p with
  | generator g =>
      cases hact
      have hempty : Payload.ofAddress (.generator 9) 0 = .ok (.generator { idPrefix := 9 }) := rfl
      exact ⟨rfl, .empty hempty⟩
  | _ => cases hact

end Books

end ChunkCache
