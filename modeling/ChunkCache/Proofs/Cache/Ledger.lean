import ChunkCache.Proofs.Cache.Contents
import ChunkCache.Proofs.Cache.References

/-!
A cache and its store as one map from addresses to contents. What every chunk holds is told by the
steps alone: by the changes made to it, the forks onto it and its discards. Whatever was evicted and
fetched again in between, the cache and the store agree with it.
-/

namespace ChunkCache

open Function

/-- A step of callers who work with one cache on one store. -/
inductive Step where
  | holdCached (a : Address)
  | holdOrFetch (a : Address) (fresh : Stamp)
  | holdOrCreate (a : Address) (fresh : Stamp)
  | mutate (t : Handle) (m : Mutation) (own : Ownership)
  | requestSave (t : Handle)
  | requestSaveAt (number : Nat)
  | fork (t : Handle) (a : Address) (fresh : Stamp)
  | releaseOf (a : Address)
  | releaseHandle (t : Handle)
  | discard (t : Handle)
  | save

def Step.call (s : RecordStore) : Step → Call
  | holdCached a => .holdCached a
  | holdOrFetch a fresh => .holdOrFetch s a fresh
  | holdOrCreate a fresh => .holdOrCreate a fresh
  | mutate t m own => .access t fun p => (m.act own p).map Prod.snd
  | requestSave t => .requestSave t
  | requestSaveAt number => .requestSaveAt number
  | fork t a fresh => .fork t a fresh
  | releaseOf a => .releaseOf a
  | releaseHandle t => .releaseHandle t
  | discard t => .discard t
  | save => .save s

def Cache.Queued {sizing : Sizing} (c : Cache sizing) (a : Address) : Prop :=
  ∃ i, c.tenant? i = some a ∧ c.pending.contains i = true

instance {sizing : Sizing} (c : Cache sizing) (a : Address) : Decidable (c.Queued a) :=
  inferInstanceAs (Decidable (∃ i, c.tenant? i = some a ∧ _))

theorem Cache.Shows.queued_iff {sizing : Sizing} {c : Cache sizing} {v : View sizing.capacity}
    {a : Address} (h : c.Shows v) : c.Queued a ↔ v.Queued a := by
  unfold Cache.Queued View.Queued
  rw [h.tenant]
  simp only [h.pending.contains_iff]

/-- A cache, its store, what every chunk holds, and what was saved of it last. -/
structure Ledger (sizing : Sizing) extends Books sizing where
  store : RecordStore
  contents : Address → Content
  saved : Address → Content

namespace Ledger

variable {sizing : Sizing} {l : Ledger sizing} {step : Step} {steps : List Step}
variable {a : Address} {fresh : Stamp} {t : Handle}

def opened (sizing : Sizing) (hash : Address → UInt64) (placement : Placement) : Ledger sizing where
  toBooks := .opened sizing hash
  store := { placement }
  contents := .empty
  saved := .empty

/-- What every chunk holds after a step. -/
def contentsAfter (l : Ledger sizing) : Step → Address → Content
  | .mutate t m own =>
    if (l.cache.access t (m.act own)).1.isOk then
      update l.contents t.address (m.apply (l.contents t.address))
    else l.contents
  | .fork t a fresh =>
    if (l.cache.fork l.cache t a fresh).1.isOk then update l.contents a (l.contents t.address)
    else l.contents
  | .discard t =>
    if (l.cache.discard t).1.isOk then update l.contents t.address (l.saved t.address)
    else l.contents
  | _ => l.contents

def savedAfter (l : Ledger sizing) : Step → Address → Content
  | .save => fun a => if l.cache.Queued a then l.contents a else l.saved a
  | _ => l.saved

def storeAfter (l : Ledger sizing) : Step → RecordStore
  | .save => (l.cache.save l.store).2.2
  | _ => l.store

def after (l : Ledger sizing) (step : Step) : Ledger sizing where
  toBooks := l.toBooks.after (step.call l.store)
  store := l.storeAfter step
  contents := l.contentsAfter step
  saved := l.savedAfter step

def run (l : Ledger sizing) (steps : List Step) : Ledger sizing := steps.foldl after l

/-- Chunks are created only where none is stored, callers release only what they hold, and no chunk
outgrows the counts of its saved form, which are beyond any list in memory. -/
def Permits (l : Ledger sizing) : Step → Prop
  | .holdOrCreate a _ => l.cache.find a = none → l.store.record? a.toKey = none
  | .mutate t m own => (l.cache.access t (m.act own)).1.isOk → (m.apply (l.contents t.address)).Fits
  | .releaseOf a => (l.cache.perform (.releaseOf a)).1.Backed l.held
  | .releaseHandle t => (l.cache.perform (.releaseHandle t)).1.Backed l.held
  | _ => True

instance (l : Ledger sizing) : (step : Step) → Decidable (l.Permits step)
  | .holdOrCreate _ _ => inferInstanceAs (Decidable (_ → _))
  | .mutate _ _ _ => inferInstanceAs (Decidable (_ → Content.Fits _))
  | .releaseOf _ | .releaseHandle _ => inferInstanceAs (Decidable (Receipt.Backed _ _))
  | .holdCached _ | .holdOrFetch _ _ | .requestSave _ | .requestSaveAt _ | .fork _ _ _
  | .discard _ | .save => isTrue trivial

def Permitted (l : Ledger sizing) : List Step → Prop
  | [] => True
  | step :: steps => l.Permits step ∧ (l.after step).Permitted steps

instance decidablePermitted (l : Ledger sizing) :
    (steps : List Step) → Decidable (l.Permitted steps)
  | [] => isTrue trivial
  | step :: steps =>
    @instDecidableAnd _ _ inferInstance (decidablePermitted (l.after step) steps)

/-- The cache and the store hold what the steps so far tell. -/
def Faithful (l : Ledger sizing) : Prop :=
  ∃ v, l.toBooks.Accounts v ∧ v.Mirrors l.store l.contents l.saved

namespace Faithful

theorem opened {hash : Address → UInt64} {placement : Placement} :
    (opened sizing hash placement).Faithful :=
  ⟨_, .opened sizing hash, .empty⟩

/-- A step does to the contents and to the store what it is to do. -/
theorem mirrored {v : View sizing.capacity} (h : l.toBooks.Accounts v)
    (hm : v.Mirrors l.store l.contents l.saved) (hstep : l.Permits step) :
    (l.after step).cache.Mirrored (l.storeAfter step) (l.contentsAfter step)
      (l.savedAfter step) := by
  obtain ⟨hshows, hexact⟩ := h
  have hself : l.cache.Mirrored l.store l.contents l.saved := ⟨v, hshows, hm⟩
  cases step with
  | holdCached a =>
      change (Cache.grantIf a (l.cache.holdCached a)).2.Mirrored _ _ _
      rw [Cache.snd_grantIf]
      exact (hshows.holdCached a).mirrored hshows hm
  | holdOrFetch a fresh =>
      change (Cache.grantIf a (l.cache.holdOrFetch l.store a fresh)).2.Mirrored _ _ _
      rw [Cache.snd_grantIf]
      exact ((hshows.holdOrFetch l.store a fresh).recalled hshows hexact hm).mirrored hshows hm
  | holdOrCreate a fresh =>
      change (Cache.grant a (l.cache.holdOrCreate a fresh)).2.Mirrored _ _ _
      rw [Cache.snd_grant]
      refine (hshows.hold (Payload.ofAddress a fresh)).mirrored hshows hexact hm fun ha => ?_
      exact hstep (hshows.find_eq_none_iff.2 ha)
  | mutate t m own =>
      change (l.cache.access t fun p => ((m.act own p).map Prod.snd).map (((), ·))).2.Mirrored _ _ _
      rw [Cache.snd_access_map]
      exact (hshows.access t (m.act own)).mirrored hshows hm hstep
  | requestSave t =>
      change (l.cache.requestSave t).2.Mirrored _ _ _
      rcases hshows.requestSave t with ⟨i, hi, heq⟩ | ⟨ht, heq⟩
      · rw [heq]
        exact hshows.mirrored_queue hm
      · rw [heq]
        exact hself
  | requestSaveAt number =>
      change (l.cache.requestSaveAt number).2.Mirrored _ _ _
      rcases Cache.requestSaveAt_cases l.cache number with ⟨i, heq⟩ | heq
      · rw [heq]
        exact hshows.mirrored_queue hm
      · rw [heq]
        exact hself
  | fork t a fresh =>
      change (Cache.grant a (l.cache.fork l.cache t a fresh)).2.Mirrored _ _ _
      rw [Cache.snd_grant]
      exact (hshows.fork l.cache t a fresh).mirrored hshows hexact hm
  | releaseOf a =>
      change (Cache.giveBack a (l.cache.releaseOf a)).2.Mirrored _ _ _
      rw [Cache.snd_giveBack]
      exact (hshows.releaseOf a).mirrored hshows hm
  | releaseHandle t =>
      change (Cache.giveBack t.address (l.cache.releaseHandle t)).2.Mirrored _ _ _
      rw [Cache.snd_giveBack]
      exact (hshows.releaseHandle t).mirrored hshows hm
  | discard t =>
      have hdiscard := (hshows.discard t).mirrored hshows hm
      have hcache : (l.after (.discard t)).cache = (l.cache.discard t).2 := by
        change (l.cache.perform (.discard t)).2 = _
        rw [Cache.perform]
        rcases l.cache.discard t with ⟨_ | _, c⟩ <;> rfl
      rw [hcache]
      exact hdiscard
  | save =>
      refine hshows.mirrored_save hm (fun a ha => ?_) fun a ha => ?_
      · exact if_pos (hshows.queued_iff.2 ha)
      · exact if_neg fun hqueued => ha (hshows.queued_iff.1 hqueued)

theorem after (h : l.Faithful) (hstep : l.Permits step) : (l.after step).Faithful := by
  obtain ⟨v, haccounts, hm⟩ := h
  have hpin : ¬l.cache.TakesPin (step.call l.store) := by
    cases step with
    | releaseOf a => exact haccounts.not_takesPin hstep
    | releaseHandle t => exact haccounts.not_takesPin hstep
    | _ => exact id
  obtain ⟨es, v', -, haccounts', -⟩ := haccounts.after hpin
  obtain ⟨w, hshows, hm'⟩ := mirrored haccounts hm hstep
  obtain rfl := haccounts'.1.unique hshows
  exact ⟨v', haccounts', hm'⟩

theorem run (h : l.Faithful) (hsteps : l.Permitted steps) : (l.run steps).Faithful := by
  induction steps generalizing l with
  | nil => exact h
  | cons step steps ih => exact ih (h.after hsteps.1) hsteps.2

theorem read (h : l.Faithful) {p : Payload} (hread : l.cache.read t = .ok p) :
    p.content = l.contents t.address := by
  obtain ⟨v, ⟨hshows, -⟩, hm⟩ := h
  obtain ⟨i, hi, hp⟩ := hshows.current_of_read hread
  obtain ⟨q, hq, hreflects⟩ := hm.cached hi.2
  obtain rfl := Option.some.inj (hp.symm.trans hq)
  exact hreflects.content_eq

theorem read_cached {i : Fin sizing.capacity} (h : l.Faithful) (hi : l.cache.tenant? i = some a) :
    ∃ p, l.cache.read ⟨i.val, a⟩ = .ok p ∧ p.content = l.contents a := by
  have ⟨v, ⟨hshows, _⟩, _⟩ := h
  rw [hshows.tenant] at hi
  obtain ⟨p, -, hp⟩ := hshows.read_eq (t := ⟨i.val, a⟩) ⟨rfl, hi⟩
  exact ⟨p, hp, h.read hp⟩

/-- A change of the kind of a cached chunk is always made. -/
theorem access_isOk {i : Fin sizing.capacity} {m : Mutation} (h : l.Faithful) (own : Ownership)
    (hi : l.cache.tenant? i = some a) (hkind : m.kind = a.kind) :
    (l.cache.access ⟨i.val, a⟩ (m.act own)).1.isOk := by
  obtain ⟨v, ⟨hshows, -⟩, hm⟩ := h
  rw [hshows.tenant] at hi
  have haccess := hshows.access ⟨i.val, a⟩ (m.act own)
  generalize l.cache.access ⟨i.val, a⟩ (m.act own) = o at haccess ⊢
  cases haccess with
  | done => rfl
  | stale e ht => exact absurd ⟨rfl, hi⟩ (ht i)
  | refused j p e hj hp hact =>
      obtain rfl : j = i := Fin.ext hj.1
      obtain ⟨q, hq, hreflects⟩ := hm.cached hi
      obtain rfl := Option.some.inj (hp.symm.trans hq)
      have hok := Mutation.act_isOk own (hreflects.regular.kind_eq.trans hkind.symm)
      rw [hact] at hok
      cases hok

theorem fetch (h : l.Faithful) (a : Address) (fresh : Stamp) :
    ∃ v : View sizing.capacity, l.cache.Shows v ∧
    l.cache.Recalled v l.store a l.contents l.saved (l.cache.holdOrFetch l.store a fresh) := by
  obtain ⟨v, ⟨hshows, hexact⟩, hm⟩ := h
  exact ⟨v, hshows, (hshows.holdOrFetch l.store a fresh).recalled hshows hexact hm⟩

theorem fetch_some {c' : Cache sizing} (h : l.Faithful)
    (hfetch : l.cache.holdOrFetch l.store a fresh = (.ok (some t), c')) :
    t.address = a ∧ ∃ p, c'.read t = .ok p ∧ p.content = l.contents a := by
  obtain ⟨v, -, hrecalled⟩ := h.fetch a fresh
  rw [hfetch] at hrecalled
  cases hrecalled with
  | found i c' v' hi hshows hmirrors =>
      obtain ⟨p, hp, hread⟩ := hshows.read_eq (t := ⟨i.val, a⟩) ⟨rfl, hi⟩
      obtain ⟨q, hq, hreflects⟩ := hmirrors.cached hi
      obtain rfl := Option.some.inj (hp.symm.trans hq)
      exact ⟨rfl, p, hread, hreflects.content_eq⟩

theorem fetch_none {c' : Cache sizing} (h : l.Faithful)
    (hfetch : l.cache.holdOrFetch l.store a fresh = (.ok none, c')) :
    l.contents a = .empty a ∧ l.cache.find a = none ∧ l.store.record? a.toKey = none := by
  obtain ⟨v, hshows, hrecalled⟩ := h.fetch a fresh
  rw [hfetch] at hrecalled
  cases hrecalled with
  | missing hcontent ha hrecord =>
      exact ⟨hcontent, hshows.find_eq_none_iff.2 ha, hrecord⟩

/-- A fetch fails only where there is no room; a record is never refused. -/
theorem fetch_error {f : Failure} {c' : Cache sizing} (h : l.Faithful)
    (hfetch : l.cache.holdOrFetch l.store a fresh = (.error f, c')) :
    f = .aborted .noBuckets ∧ sizing.buckets = 0 ∨
      f = .refused (.cacheFull sizing.capacity 0) ∧ ∀ i, l.cache.mark i ≠ 0 := by
  obtain ⟨v, hshows, hrecalled⟩ := h.fetch a fresh
  rw [hfetch] at hrecalled
  cases hrecalled with
  | noBuckets hbuckets => exact .inl ⟨rfl, hbuckets⟩
  | full hidle =>
      refine .inr ⟨rfl, fun i hmark => ?_⟩
      rw [hshows.mark, ← hshows.tidy.mem_idle, hidle] at hmark
      exact List.not_mem_nil hmark

theorem keeps_saved (h : l.Faithful) (a : Address) : l.store.Keeps a (l.saved a) := by
  obtain ⟨v, -, hm⟩ := h
  exact hm.stored a

/-- Nothing is left to be saved after a save. -/
theorem keeps_contents (h : l.Faithful) (a : Address) :
    (l.after .save).store.Keeps a (l.contents a) := by
  have hafter : (l.after .save).Faithful := h.after trivial
  have hkeeps := hafter.keeps_saved a
  obtain ⟨v, ⟨hshows, -⟩, hm⟩ := h
  have hsaved : (l.after .save).saved a = l.contents a := by
    change (if l.cache.Queued a then l.contents a else l.saved a) = _
    split
    · rfl
    · rename_i hqueued
      exact (hm.settled fun hqueued' => hqueued (hshows.queued_iff.2 hqueued')).symm
  rwa [hsaved] at hkeeps

end Faithful

/-- A cache and its store are one map from addresses to contents: after any permitted steps, on a
cache of any sizes, a chunk that is fetched reads as what the steps tell, whatever was evicted and
fetched again in between. A chunk that is not found is empty, neither cached nor stored, and no
fetch fails but for want of buckets or of a slot without references. Every cached chunk can be read
and changed and reads as the steps tell, and a save leaves all of it in the store. -/
theorem contents_exact (sizing : Sizing) (hash : Address → UInt64) (placement : Placement)
    (steps : List Step) (hsteps : (opened sizing hash placement).Permitted steps) :
    let l := (opened sizing hash placement).run steps
    (∀ a fresh t c', l.cache.holdOrFetch l.store a fresh = (.ok (some t), c') →
      t.address = a ∧ ∃ p, c'.read t = .ok p ∧ p.content = l.contents a) ∧
    (∀ a fresh c', l.cache.holdOrFetch l.store a fresh = (.ok none, c') →
      l.contents a = .empty a ∧ l.cache.find a = none ∧ l.store.record? a.toKey = none) ∧
    (∀ a fresh f c', l.cache.holdOrFetch l.store a fresh = (.error f, c') →
      f = .aborted .noBuckets ∧ sizing.buckets = 0 ∨
        f = .refused (.cacheFull sizing.capacity 0) ∧ ∀ i, l.cache.mark i ≠ 0) ∧
    (∀ i a, l.cache.tenant? i = some a →
      ∃ p, l.cache.read ⟨i.val, a⟩ = .ok p ∧ p.content = l.contents a) ∧
    (∀ i a (m : Mutation) own, l.cache.tenant? i = some a → m.kind = a.kind →
      (l.cache.access ⟨i.val, a⟩ (m.act own)).1.isOk) ∧
    (∀ t p, l.cache.read t = .ok p → p.content = l.contents t.address) ∧
    ∀ a, l.store.Keeps a (l.saved a) ∧ (l.after .save).store.Keeps a (l.contents a) := by
  intro l
  have h : l.Faithful := Faithful.opened.run hsteps
  exact ⟨fun a fresh t c' => h.fetch_some, fun a fresh c' => h.fetch_none,
    fun a fresh f c' => h.fetch_error, fun i a => h.read_cached,
    fun i a m own => h.access_isOk own, fun t p => h.read,
    fun a => ⟨h.keeps_saved a, h.keeps_contents a⟩⟩

/-- Two timelines that have to share a slot: the first is changed, saved, evicted by the second and
changed again after it was fetched. -/
def revisited : List Step :=
  [ .holdOrCreate Books.first 0,
    .mutate ⟨0, Books.first⟩ (.insert 10) (.unknown 0),
    .save,
    .releaseOf Books.first,
    .holdOrCreate Books.second 0,
    .releaseOf Books.second,
    .holdOrFetch Books.first 0,
    .mutate ⟨0, Books.first⟩ (.insert 20) (.unknown 0),
    .releaseOf Books.first,
    .save,
    .holdOrCreate Books.second 0,
    .releaseOf Books.second ]

theorem contents_exact_revisited :
    (opened ⟨1, 1⟩ (fun _ => 0) .sameThread).Permitted revisited ∧
      let l := (opened ⟨1, 1⟩ (fun _ => 0) .sameThread).run revisited
      l.cache.tenant? 0 = some Books.second ∧ l.contents Books.first = .timeline [10, 20] ∧
        (l.cache.holdOrFetch l.store Books.first 0).1.isOk ∧
        ∀ t c', l.cache.holdOrFetch l.store Books.first 0 = (.ok (some t), c') →
          ∃ p, c'.read t = .ok p ∧ p.content = .timeline [10, 20] := by
  have hpermitted : (opened ⟨1, 1⟩ (fun _ => 0) .sameThread).Permitted revisited := by
    decide +kernel
  have hcontent : ((opened ⟨1, 1⟩ (fun _ => 0) .sameThread).run revisited).contents Books.first =
      .timeline [10, 20] := by
    decide +kernel
  refine ⟨hpermitted, by decide +kernel, hcontent, by decide +kernel, fun t c' hfetch => ?_⟩
  obtain ⟨-, p, hread, hp⟩ := (contents_exact _ _ _ _ hpermitted).1 Books.first 0 t c' hfetch
  exact ⟨p, hread, hp.trans hcontent⟩

end Ledger

end ChunkCache
