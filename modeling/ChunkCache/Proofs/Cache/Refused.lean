import ChunkCache.Proofs.Cache.Room
import ChunkCache.Proofs.Malformed

namespace ChunkCache

open Function

namespace Payload

variable {a : Address} {p : Payload} {fresh : Stamp} {own : Ownership} {record : Bytes} {e : Error}

theorem isDirty_ofAddress (h : ofAddress a fresh = .ok p) : p.isDirty = false := by
  rw [isDirty, (ofAddress_eq h).2.2]

/-- An empty chunk that was brought in takes a record exactly if the record can be decoded. -/
theorem load_admitted_eq_error_iff (h : ofAddress a fresh = .ok p) :
    p.admitted.load own record = .error e ↔ a.kind.check record = .error e := by
  rw [load_eq_error_iff, admitted, forgetNotices, listen, kind_mapTracker, kind_mapTracker,
    kind_ofAddress h]

end Payload

namespace View

variable {n : Nat} {v : View n} {i : Fin n} {a : Address} {p : Payload}

/-- A chunk that is brought in and released at once leaves the marks as they were. -/
theorem release_occupy (hi : v.mark i = 0) : (v.occupy i a p).release i =
    { v with
      tenant := update v.tenant i (some a)
      payload := update v.payload i (some p)
      idle := i :: v.idle.erase i } := by
  have hmark : (v.occupy i a p).mark i = 1 := update_self ..
  rw [release, if_neg (by omega), if_pos hmark, hmark]
  simp only [occupy, update_idem, Int.sub_self, ← hi, update_eq_self]

end View

namespace Cache

variable {sizing : Sizing} {c c' : Cache sizing} {v u : View sizing.capacity}
variable {i : Fin sizing.capacity} {a : Address} {p : Payload} {fresh : Stamp} {record : Bytes}
variable {e : Error} {s : RecordStore} {es : List (Effect sizing.capacity)}

/-- The cache `c'` is `c` with a chunk that nobody holds in the slot that was idle the longest. This
slot is now the one that became idle last, and nothing else has changed. -/
structure Strands (c : Cache sizing) (i : Fin sizing.capacity) (a : Address) (p : Payload)
    (c' : Cache sizing) : Prop where
  last : c.idle.toList.getLast? = some i
  unmarked : c.mark i = 0
  tenant : c'.tenant? = update c.tenant? i (some a)
  read : c'.read ⟨i.val, a⟩ = .ok p
  mark : c'.mark = c.mark
  idle : c'.idle.toList = i :: c.idle.toList.erase i
  pending : c'.pending.toList = c.pending.toList
  others : ∀ {j b}, j ≠ i → c.tenant? j = some b → c'.read ⟨j.val, b⟩ = c.read ⟨j.val, b⟩

theorem Shows.strands (h : c.Shows v) (hi : v.idle.getLast? = some i)
    (h' : c'.Shows ((v.occupy i a p).release i)) : c.Strands i a p c' := by
  have hmark : v.mark i = 0 := h.tidy.mem_idle.1 (List.mem_of_getLast? hi)
  rw [View.release_occupy hmark] at h'
  have htenant : c'.tenant? = update v.tenant i (some a) := h'.tenant
  have hread : ∀ j b, c'.tenant? j = some b →
      ∃ q, update v.payload i (some p) j = some q ∧ c'.read ⟨j.val, b⟩ = .ok q := by
    intro j b hj
    rw [h'.tenant] at hj
    exact h'.read_eq ⟨rfl, hj⟩
  refine ⟨?_, ?_, ?_, ?_, ?_, ?_, ?_, fun {j b} hij hj => ?_⟩
  · rw [h.idle.toList_eq, hi]
  · rw [h.mark, hmark]
  · rw [htenant, h.tenant]
  · obtain ⟨q, hq, hi'⟩ := hread i a (by rw [htenant, update_self])
    rw [update_self] at hq
    rw [hi', Option.some.inj hq]
  · rw [h'.mark, h.mark]
  · rw [h'.idle.toList_eq, h.idle.toList_eq]
  · rw [h'.pending.toList_eq, h.pending.toList_eq]
  · rw [h.tenant] at hj
    obtain ⟨q, hq, hj'⟩ := hread j b (by rw [htenant, update_of_ne hij, hj])
    obtain ⟨q', hq', hj''⟩ := h.read_eq (t := ⟨j.val, b⟩) ⟨rfl, hj⟩
    rw [update_of_ne hij, hq'] at hq
    rw [hj', hj'', Option.some.inj hq]

/-- A chunk that is brought in empty is not queued, so nothing else happens. -/
theorem Holding.occupies (h : Holding v a (Payload.ofAddress a fresh) i es)
    (ha : ∀ j, v.tenant j ≠ some a) (hrun : v.Run es u) : ∃ p, Payload.ofAddress a fresh = .ok p ∧
      v.idle.getLast? = some i ∧ u = v.occupy i a p.admitted ∧ u.payload i = some p.admitted := by
  cases h with
  | cached hi => exact absurd hi (ha i)
  | brought p _ hmake =>
      rw [admission, Payload.isDirty_ofAddress hmake] at hrun
      obtain ⟨⟨hlast, -⟩, rfl⟩ := hrun
      exact ⟨p, hmake, hlast, rfl, update_self ..⟩

section Rejected

variable (h : c.Shows v) (hbuckets : 0 < sizing.buckets) (hadmissible : a.Admissible)
variable (ha : ∀ j, v.tenant j ≠ some a) (hcheck : a.kind.check record = .error e)

include h hbuckets hadmissible ha hcheck

/-- A record that cannot be decoded is refused with the error of its decoder, if there was room for
its chunk. -/
theorem Completed.rejected {o : Outcome Handle sizing} (ho : Completed c v a record fresh o) :
    (v.idle = [] ∧ o = (.error (.refused (.cacheFull sizing.capacity 0)), c)) ∨
      ∃ i p c', v.idle ≠ [] ∧ o = (.error (.refused e), c') ∧ c.Strands i a p c' ∧
        p.content = .empty a ∧ p.isDirty = false := by
  cases ho with
  | failed f hf =>
      cases hf with
      | noBuckets hnone => omega
      | full p _ _ hidle => exact .inl ⟨hidle, rfl⟩
      | refused e' _ hmake =>
          have hok : (Payload.ofAddress a fresh).isOk := Payload.isOk_ofAddress.2 hadmissible
          rw [hmake] at hok
          cases hok
  | undone i es p e' c' u hes hheld hp hload hshows =>
      obtain ⟨q, hmake, hlast, rfl, hq⟩ := hes.occupies ha hheld
      obtain rfl : q.admitted = p := Option.some.inj (hq.symm.trans hp)
      rw [Payload.load_admitted_eq_error_iff hmake, hcheck] at hload
      cases hload
      refine .inr ⟨i, q.admitted, c', ?_, rfl, h.strands hlast hshows, ?_, ?_⟩
      · rintro hidle
        rw [hidle] at hlast
        cases hlast
      · rw [Payload.admitted, Payload.forgetNotices, Payload.listen, Payload.content_mapTracker,
          Payload.content_mapTracker, (Payload.ofAddress_eq hmake).1]
      · rw [Payload.isDirty_admitted, Payload.isDirty_ofAddress hmake]
  | done i es p p' c' u v' hes hheld hp hload hrun hshows =>
      obtain ⟨q, hmake, hlast, rfl, hq⟩ := hes.occupies ha hheld
      obtain rfl : q.admitted = p := Option.some.inj (hq.symm.trans hp)
      rw [(Payload.load_admitted_eq_error_iff hmake).2 hcheck] at hload
      cases hload

theorem Shows.holdOrFetch_rejected (fresh : Stamp) (hread : s.read a.toKey = .ok (some record)) :
    (v.idle = [] ∧ c.holdOrFetch s a fresh =
      (.error (.refused (.cacheFull sizing.capacity 0)), c)) ∨
      ∃ i p c', v.idle ≠ [] ∧ c.holdOrFetch s a fresh = (.error (.refused e), c') ∧
        c.Strands i a p c' ∧ p.content = .empty a ∧ p.isDirty = false := by
  rw [h.holdOrFetch_stored hbuckets ha hread]
  rcases (h.complete a record fresh).rejected h hbuckets hadmissible ha hcheck with
    ⟨hidle, heq⟩ | ⟨i, p, c', hidle, heq, hstrands⟩
  · rw [heq]
    exact .inl ⟨hidle, rfl⟩
  · rw [heq]
    exact .inr ⟨i, p, c', hidle, rfl, hstrands⟩

end Rejected

end Cache

namespace Books

/-- After any calls, a fetch of a chunk that is not cached from a record that its decoder refuses is
refused with that error, and the record is called malformed. If a slot has no mark, an empty and
clean chunk is left in the one that was idle the longest, with no mark; otherwise the cache is full
and stays as it is. Whatever is called then, a fetch from such a record never succeeds while the
chunk is not cached. -/
theorem fetch_refused (sizing : Sizing) (hash : Address → UInt64) (calls : List Call)
    (hbuckets : 0 < sizing.buckets) :
    let b := (opened sizing hash).run calls
    let c := b.cache
    ∀ (s : RecordStore) a record e fresh, a.Admissible → s.read a.toKey = .ok (some record) →
    a.kind.check record = .error e → (∀ i, c.tenant? i ≠ some a) →
    let fetched := c.holdOrFetch s a fresh
    (∃ cause, e = .malformed cause) ∧
    ((∃ i, c.mark i = 0) → fetched.1 = .error (.refused e) ∧
      ∃ i p, c.Strands i a p fetched.2 ∧ p.content = .empty a ∧ p.isDirty = false) ∧
    ((∀ i, c.mark i ≠ 0) → fetched = (.error (.refused (.cacheFull sizing.capacity 0)), c)) ∧
    ∀ later s' fresh', let d := ((b.after (.holdOrFetch s a fresh)).run later).cache
      s'.read a.toKey = .ok (some record) → (∀ i, d.tenant? i ≠ some a) →
      (d.holdOrFetch s' a fresh').1 = .error (.refused e) ∨ (∀ i, d.mark i ≠ 0) ∧
        (d.holdOrFetch s' a fresh').1 = .error (.refused (.cacheFull sizing.capacity 0)) := by
  intro b c s a record e fresh hadmissible hread hcheck ha fetched
  obtain ⟨v, h, -⟩ := shows_run (b := opened sizing hash) (.emptyWith hash) calls
  have hfetch := h.holdOrFetch_rejected hbuckets hadmissible (h.tenant ▸ ha) hcheck fresh hread
  refine ⟨a.kind.blames_check record e hcheck, fun hroom => ?_, fun hfull => ?_,
    fun later s' fresh' hread' ha' => ?_⟩
  · rcases hfetch with ⟨hidle, -⟩ | ⟨i, p, c', -, heq, hstrands⟩
    · exact absurd hidle (h.idle_ne_nil_iff.2 hroom)
    · exact ⟨congrArg Prod.fst heq, i, p, (congrArg Prod.snd heq) ▸ hstrands⟩
  · rcases hfetch with ⟨-, heq⟩ | ⟨i, p, c', hidle, -⟩
    · exact heq
    · obtain ⟨i, hi⟩ := h.idle_ne_nil_iff.1 hidle
      exact absurd hi (hfull i)
  · have ⟨es, u, hrun, hshows, _⟩ := h.perform (.holdOrFetch s a fresh)
    obtain ⟨w, hw, -⟩ := shows_run (b := b.after (.holdOrFetch s a fresh)) hshows later
    rcases hw.holdOrFetch_rejected hbuckets hadmissible (hw.tenant ▸ ha') hcheck fresh' hread' with
      ⟨hidle, heq⟩ | ⟨i, p, c', -, heq, -⟩
    · exact .inr ⟨fun i hi => hw.idle_ne_nil_iff.2 ⟨i, hi⟩ hidle, congrArg Prod.fst heq⟩
    · exact .inl (congrArg Prod.fst heq)

/-- A store with a record of `first` that is no timeline. -/
def spoilt : RecordStore := { records := SortedMap.empty.insert first.toKey (Bytes.ofString "10") }

/-- The failed fetch evicts the only chunk, which comes back and evicts the empty one in turn; then
the record is read and refused once more. -/
theorem fetch_refused_twice :
    let calls := [.holdOrCreate second 0, .releaseOf second]
    let b := (opened ⟨1, 1⟩ fun _ => 0).run calls
    let d := ((b.after (.holdOrFetch spoilt first 0)).run calls).cache
    let refusal : Error := .malformed .noTimelineHeader
    (b.cache.holdOrFetch spoilt first 0).1 = .error (.refused refusal) ∧
      (∃ i p, b.cache.Strands i first p (b.cache.holdOrFetch spoilt first 0).2 ∧
        p.content = .timeline [] ∧ p.isDirty = false) ∧
      (d.holdOrFetch spoilt first 0).1 = .error (.refused refusal) := by
  intro calls b d refusal
  have hread : spoilt.read first.toKey = .ok (some (Bytes.ofString "10")) := by decide +kernel
  have hcheck : first.kind.check (Bytes.ofString "10") = .error refusal := by decide +kernel
  obtain ⟨-, hroom, -, hlater⟩ := fetch_refused ⟨1, 1⟩ (fun _ => 0) calls (by decide) spoilt first _
    _ 0 (by decide) hread hcheck (by decide +kernel)
  obtain ⟨hanswer, hstrands⟩ := hroom ⟨0, by decide +kernel⟩
  refine ⟨hanswer, hstrands, (hlater calls spoilt 0 hread (by decide +kernel)).resolve_right ?_⟩
  rintro ⟨hfull, -⟩
  exact hfull 0 (by decide +kernel)

/-- The empty chunk that a failed fetch leaves is cached, and the next fetch finds it there. -/
theorem refused_record_found :
    let c := ((opened ⟨2, 4⟩ Address.hash).run []).cache
    let a : Address := .timeline 0 500
    let record := Bytes.ofString "not a tree"
    let s : RecordStore := { records := SortedMap.empty.insert a.toKey record }
    let fetched := c.holdOrFetch s a 0
    let again := fetched.2.holdOrFetch s a 0
    Cache.create ⟨2, 4⟩ = .ok c ∧ (∀ i, c.tenant? i ≠ some a) ∧ c.mark 0 = 0 ∧
      s.read a.toKey = .ok (some record) ∧
      a.kind.check record = .error (.malformed .noTimelineHeader) ∧
      fetched.1 = .error (.refused (.malformed .noTimelineHeader)) ∧
      fetched.2.tenant? 0 = some a ∧ again.1 = .ok (some ⟨0, a⟩) ∧
      (again.2.read ⟨0, a⟩).map Payload.content = .ok (.timeline []) := by
  intro c a record s fetched again
  refine ⟨rfl, by decide +kernel, by decide +kernel, by decide +kernel, by decide +kernel, ?_⟩
  exact ⟨by decide +kernel, by decide +kernel, by decide +kernel, by decide +kernel⟩

end Books

end ChunkCache
