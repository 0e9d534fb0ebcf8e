import ChunkCache.Cache.Fetch
import ChunkCache.Cache.Fork
import ChunkCache.Proofs.Cache.Admission

namespace ChunkCache.Cache

variable {sizing origin : Sizing} {c c' : Cache sizing} {v v' : View sizing.capacity}
variable {i k : Fin sizing.capacity} {a : Address} {p : Payload} {t : Handle} {α : Type}

/-- What happens when a payload is written back to the slot of `a`. -/
def rewriting (i : Fin sizing.capacity) (a : Address) (p : Payload) :
    List (Effect sizing.capacity) :=
  .write i a p.forgetNotices :: if 0 < p.tracker.notices then [.queue i] else []

/-- The ways in which an access can end. -/
inductive Accessed (c : Cache sizing) (v : View sizing.capacity) (t : Handle)
    (act : Payload → Except Error (α × Payload)) : Outcome α sizing → Prop
  | done (i : Fin sizing.capacity) (p p' : Payload) (answer : α) (c' : Cache sizing)
      (v' : View sizing.capacity) (hi : v.Current t i) (hp : v.payload i = some p)
      (hact : act p = .ok (answer, p')) (hrun : v.Run (rewriting i t.address p') v')
      (hshows : c'.Shows v') : Accessed c v t act (.ok answer, c')
  | refused (i : Fin sizing.capacity) (p : Payload) (e : Error) (hi : v.Current t i)
      (hp : v.payload i = some p) (hact : act p = .error e) :
      Accessed c v t act (.error (.refused e), c)
  | stale (e : Error) (ht : ∀ i, ¬v.Current t i) : Accessed c v t act (.error (.refused e), c)

namespace Shows

theorem payload_eq (h : c.Shows v) (hi : v.Current t i) :
    ∃ k p, c.payload t = .ok (i, k, p) ∧ c.cell? i = some k ∧ v.payload i = some p := by
  obtain ⟨k, p, hk, hp, hpayload⟩ := h.payload_of_tenant hi.2
  refine ⟨k, p, ?_, hk, hpayload⟩
  have hslot : slotAt sizing t.slot = .ok i := by
    rw [← hi.1, slotAt, dif_pos i.isLt]
  have htenant : c.tenant? i = some t.address := by rw [h.tenant, hi.2]
  have hcell : (c.slots.get i).cell = some k := hk
  simp only [Cache.payload, hslot, bind, Except.bind, hcell, CellPool.lookup_of_get? hp]
  exact if_pos htenant

theorem payload_stale (h : c.Shows v) (ht : ∀ i, ¬v.Current t i) : ∃ e, c.payload t = .error e := by
  rw [Cache.payload, slotAt]
  split
  · rename_i hslot
    simp only [bind, Except.bind]
    cases (c.slots.get ⟨t.slot, hslot⟩).cell with
    | none => exact ⟨_, rfl⟩
    | some k =>
        cases hlookup : c.pool.lookup k.val with
        | error e => exact ⟨e, by simp only [hlookup]⟩
        | ok found =>
            refine ⟨.badHandle k.val, ?_⟩
            simp only [hlookup]
            refine if_neg fun htenant => ?_
            rw [h.tenant] at htenant
            exact ht ⟨t.slot, hslot⟩ ⟨rfl, htenant⟩
  · exact ⟨_, rfl⟩

theorem writeBack (h : c.Shows v) (hk : c.cell? i = some k) (hi : v.tenant i = some a) :
    ∃ v', v.Run (rewriting i a p) v' ∧ (c.writeBack i k p).Shows v' := by
  have hwrite := h.write hk p.notices_forgetNotices
  have hallows : v.Allows (.write i a p.forgetNotices) := hi
  unfold Cache.writeBack rewriting
  simp only
  split
  · exact ⟨_, ⟨hallows, trivial, rfl⟩, hwrite.queueForSave⟩
  · exact ⟨_, .single hallows, hwrite⟩

theorem access (h : c.Shows v) (t : Handle) (act : Payload → Except Error (α × Payload)) :
    Accessed c v t act (c.access t act) := by
  unfold Cache.access
  by_cases ht : ∃ i, v.Current t i
  · obtain ⟨i, hi⟩ := ht
    obtain ⟨k, p, hpayload, hk, hp⟩ := h.payload_eq hi
    rw [hpayload]
    simp only
    cases hact : act p with
    | error e => exact .refused i p e hi hp hact
    | ok result =>
        obtain ⟨answer, p'⟩ := result
        obtain ⟨v', hrun, hshows⟩ := h.writeBack (p := p') hk hi.2
        exact .done i p p' answer _ v' hi hp hact hrun hshows
  · have hstale : ∀ i, ¬v.Current t i := fun i hi => ht ⟨i, hi⟩
    obtain ⟨e, he⟩ := h.payload_stale hstale
    rw [he]
    exact .stale e hstale

end Shows

theorem Holding.tenant {make : Except Error Payload} {es : List (Effect sizing.capacity)}
    (h : Holding v a make i es) (hrun : v.Run es v') : v'.tenant i = some a := by
  cases h with
  | cached hi =>
      obtain ⟨-, rfl⟩ := hrun
      exact hi
  | brought p ha hmake =>
      unfold admission at hrun
      split at hrun
      · obtain ⟨-, -, rfl⟩ := hrun
        rw [View.after, View.after, View.tenant_queue]
        exact Function.update_self ..
      · obtain ⟨-, rfl⟩ := hrun
        exact Function.update_self ..

inductive Completed (c : Cache sizing) (v : View sizing.capacity) (a : Address) (record : Bytes)
    (fresh : Stamp) : Outcome Handle sizing → Prop
  | done (i : Fin sizing.capacity) (es : List (Effect sizing.capacity)) (p p' : Payload)
      (c' : Cache sizing) (u v' : View sizing.capacity)
      (hes : Holding v a (Payload.ofAddress a fresh) i es) (hheld : v.Run es u)
      (hp : u.payload i = some p) (hload : p.load (.unknown fresh) record = .ok p')
      (hrun : u.Run (rewriting i a p') v') (hshows : c'.Shows v') :
      Completed c v a record fresh (.ok ⟨i.val, a⟩, c')
  | undone (i : Fin sizing.capacity) (es : List (Effect sizing.capacity)) (p : Payload) (e : Error)
      (c' : Cache sizing) (u : View sizing.capacity)
      (hes : Holding v a (Payload.ofAddress a fresh) i es) (hheld : v.Run es u)
      (hp : u.payload i = some p) (hload : p.load (.unknown fresh) record = .error e)
      (hshows : c'.Shows (u.release i)) : Completed c v a record fresh (.error (.refused e), c')
  | failed (f : Failure) (hf : NotHolding v a (Payload.ofAddress a fresh) f) :
      Completed c v a record fresh (.error f, c)

inductive Answered (c : Cache sizing) (v : View sizing.capacity) (s : RecordStore) (a : Address) :
    Outcome Requested sizing → Prop
  | cached (i : Fin sizing.capacity) (hi : v.tenant i = some a) :
      Answered c v s a (.ok (.cached ⟨i.val, a⟩), c.retain i)
  | stored (record : Option Bytes) (ha : ∀ j, v.tenant j ≠ some a)
      (hread : s.read a.toKey = .ok record) : Answered c v s a (.ok (.stored record), c)
  | unread (e : Error) (ha : ∀ j, v.tenant j ≠ some a) (hread : s.read a.toKey = .error e) :
      Answered c v s a (.error (.refused e), c)
  | noBuckets (hbuckets : sizing.buckets = 0) : Answered c v s a (.error (.aborted .noBuckets), c)

inductive Fetched (c : Cache sizing) (v : View sizing.capacity) (s : RecordStore) (a : Address)
    (fresh : Stamp) : Outcome (Option Handle) sizing → Prop
  | cached (i : Fin sizing.capacity) (hi : v.tenant i = some a) :
      Fetched c v s a fresh (.ok (some ⟨i.val, a⟩), c.retain i)
  | missing (ha : ∀ j, v.tenant j ≠ some a) (hread : s.read a.toKey = .ok none) :
      Fetched c v s a fresh (.ok none, c)
  | completed (record : Bytes) (ha : ∀ j, v.tenant j ≠ some a)
      (hread : s.read a.toKey = .ok (some record))
      (hcomplete : Completed c v a record fresh (c.complete a record fresh)) :
      Fetched c v s a fresh
        ((c.complete a record fresh).1.map some, (c.complete a record fresh).2)
  | unread (e : Error) (ha : ∀ j, v.tenant j ≠ some a) (hread : s.read a.toKey = .error e) :
      Fetched c v s a fresh (.error (.refused e), c)
  | noBuckets (hbuckets : sizing.buckets = 0) :
    Fetched c v s a fresh (.error (.aborted .noBuckets), c)

inductive Forked (c : Cache sizing) (v : View sizing.capacity) (source : Cache origin) (t : Handle)
    (a : Address) (fresh : Stamp) : Outcome Handle sizing → Prop
  | done (i : Fin sizing.capacity) (es : List (Effect sizing.capacity)) (m : AttributeMap)
      (c' : Cache sizing) (u v' : View sizing.capacity) (hkind : a.kind = .attributes)
      (hm : source.readAttributes t = .ok m)
      (hes : Holding v a (Payload.ofAddress a fresh) i es) (hheld : v.Run es u)
      (hrun : u.Run (rewriting i a (forkedPayload m)) v') (hshows : c'.Shows v') :
      Forked c v source t a fresh (.ok ⟨i.val, a⟩, c')
  | failed (f : Failure) (hf : a.kind = .attributes → ∀ m, source.readAttributes t = .ok m →
      NotHolding v a (Payload.ofAddress a fresh) f) : Forked c v source t a fresh (.error f, c)

namespace Shows

theorem load (h : c.Shows v) (t : Handle) (buffer : Bytes) (fresh : Stamp) :
    Accessed c v t (fun p => (p.load (.unknown fresh) buffer).map (((), ·)))
      (c.load t buffer fresh) :=
  h.access t _

theorem complete (h : c.Shows v) (a : Address) (record : Bytes) (fresh : Stamp) :
    Completed c v a record fresh (c.complete a record fresh) := by
  unfold Cache.complete
  have hhold := h.hold (a := a) (Payload.ofAddress a fresh)
  generalize c.hold a (Payload.ofAddress a fresh) = outcome at hhold ⊢
  cases hhold with
  | error f hf => exact .failed f hf
  | ok i es d u hes hrun hshows =>
      have hcurrent : u.Current ⟨i.val, a⟩ i := ⟨rfl, hes.tenant hrun⟩
      have hload := hshows.load ⟨i.val, a⟩ record fresh
      simp only
      generalize d.load ⟨i.val, a⟩ record fresh = loaded at hload ⊢
      cases hload with
      | stale e ht => exact absurd hcurrent (ht i)
      | refused i' p e hi hp hact =>
          obtain rfl : i' = i := Fin.ext hi.1
          refine .undone i' es p e _ u hes hrun hp ?_ hshows.release
          cases hp' : p.load (.unknown fresh) record with
          | error e' =>
              rw [hp'] at hact
              cases hact
              rfl
          | ok p' =>
              rw [hp'] at hact
              cases hact
      | done i' p p' answer c' v' hi hp hact hrun' hshows' =>
          obtain rfl : i' = i := Fin.ext hi.1
          refine .done i' es p p' c' u v' hes hrun hp ?_ hrun' hshows'
          cases hp' : p.load (.unknown fresh) record with
          | error e' =>
              rw [hp'] at hact
              cases hact
          | ok p'' =>
              rw [hp'] at hact
              cases hact
              rfl

theorem request (h : c.Shows v) (s : RecordStore) (a : Address) :
    Answered c v s a (c.request s a) := by
  unfold Cache.request
  refine h.lookup a .noBuckets (fun i hi hfind => ?_) (fun hbuckets ha hfind => ?_)
  · simp only [retainCached, hfind, Option.map_some]
    exact .cached i hi
  · simp only [retainCached, hfind, Option.map_none]
    cases hread : s.read a.toKey with
    | error e => exact .unread e ha hread
    | ok record => exact .stored record ha hread

theorem holdOrFetch (h : c.Shows v) (s : RecordStore) (a : Address) (fresh : Stamp) :
    Fetched c v s a fresh (c.holdOrFetch s a fresh) := by
  unfold Cache.holdOrFetch
  have hrequest := h.request s a
  generalize c.request s a = outcome at hrequest ⊢
  cases hrequest with
  | cached i hi => exact .cached i hi
  | unread e ha hread => exact .unread e ha hread
  | noBuckets hbuckets => exact .noBuckets hbuckets
  | stored record ha hread =>
      cases record with
      | none => exact .missing ha hread
      | some record => exact .completed record ha hread (h.complete a record fresh)

/-- A fetch of a chunk that is not cached but stored brings it in and merges its record. -/
theorem holdOrFetch_stored {s : RecordStore} {record : Bytes} (h : c.Shows v)
    (hbuckets : 0 < sizing.buckets) (ha : ∀ j, v.tenant j ≠ some a)
    (hread : s.read a.toKey = .ok (some record)) (fresh : Stamp) : c.holdOrFetch s a fresh =
      ((c.complete a record fresh).1.map some, (c.complete a record fresh).2) := by
  have hfetch := h.holdOrFetch s a fresh
  generalize c.holdOrFetch s a fresh = o at hfetch ⊢
  cases hfetch with
  | cached i hi => exact absurd hi (ha i)
  | noBuckets hnone => omega
  | missing _ hnone =>
      rw [hread] at hnone
      cases hnone
  | unread e _ herror =>
      rw [hread] at herror
      cases herror
  | completed record' _ hsome hcomplete =>
      rw [hread] at hsome
      cases hsome
      rfl

theorem fork (h : c.Shows v) (source : Cache origin) (t : Handle) (a : Address) (fresh : Stamp) :
    Forked c v source t a fresh (c.fork source t a fresh) := by
  unfold Cache.fork
  split
  · rename_i hkind
    exact .failed _ fun hattributes => absurd hattributes hkind
  rename_i hkind
  have hkind := Decidable.not_not.1 hkind
  cases hm : source.readAttributes t with
  | error e =>
      refine .failed _ fun _ m hm' => ?_
      rw [hm] at hm'
      cases hm'
  | ok m =>
      simp only
      have hhold := h.hold (a := a) (Payload.ofAddress a fresh)
      generalize c.hold a (Payload.ofAddress a fresh) = outcome at hhold ⊢
      cases hhold with
      | error f hf => exact .failed f fun _ _ _ => hf
      | ok i es d u hes hrun hshows =>
          have hcurrent : u.Current ⟨i.val, a⟩ i := ⟨rfl, hes.tenant hrun⟩
          have haccess := hshows.access ⟨i.val, a⟩ fun _ => .ok ((), forkedPayload m)
          simp only
          generalize d.access ⟨i.val, a⟩ (fun _ => .ok ((), forkedPayload m)) = written
            at haccess ⊢
          cases haccess with
          | stale e ht => exact absurd hcurrent (ht i)
          | refused i' p e hi hp hact => cases hact
          | done i' p p' answer c' v' hi hp hact hrun' hshows' =>
              obtain rfl : i' = i := Fin.ext hi.1
              cases hact
              exact .done i' es m c' u v' hkind hm hes hrun hrun' hshows'

end Shows

end ChunkCache.Cache
