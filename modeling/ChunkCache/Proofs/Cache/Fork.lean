import ChunkCache.Proofs.Cache.Attempts
import ChunkCache.Proofs.Cache.Contents
import ChunkCache.Proofs.Cache.Refused

namespace ChunkCache

open Function

namespace View

variable {n : Nat} {v u : View n} {i j : Fin n} {a : Address} {p : Payload}

theorem mark_queue :
    (v.queue i).mark j = v.mark j + if j = i ∧ i ∉ v.pending then 1 else 0 := by
  unfold queue
  split
  · rename_i hi
    simp [hi]
  · rename_i hi
    rw [mark_retain]
    simp [hi]

/-- The contents `u` are `v` with one more reference to the chunk of `a`, which is in slot `i`. If
it was not cached, it is in the slot that was idle the longest. -/
structure Takes (v u : View n) (i : Fin n) (a : Address) : Prop where
  place : v.tenant i = some a ∨ (∀ j, v.tenant j ≠ some a) ∧ v.idle.getLast? = some i
  tenant : u.tenant = update v.tenant i (some a)
  mark : u.mark i = (if v.tenant i = some a then v.mark i else 0) + 1
  pending : u.pending = v.pending
  others : ∀ {j}, j ≠ i → u.mark j = v.mark j ∧ u.payload j = v.payload j

theorem takes_retain (hi : v.tenant i = some a) : v.Takes (v.retain i) i a where
  place := .inl hi
  tenant := (update_eq_self_iff.2 hi.symm).symm
  mark := by rw [mark_retain, if_pos rfl, if_pos hi]
  pending := rfl
  others hij := ⟨by rw [mark_retain, if_neg hij, Int.add_zero], rfl⟩

theorem takes_occupy (ha : ∀ j, v.tenant j ≠ some a) (hi : v.idle.getLast? = some i) :
    v.Takes (v.occupy i a p) i a where
  place := .inr ⟨ha, hi⟩
  tenant := rfl
  mark := by
    rw [if_neg (ha i)]
    exact update_self ..
  pending := rfl
  others hij := ⟨update_of_ne hij .., update_of_ne hij ..⟩

end View

namespace Cache

variable {sizing origin : Sizing} {c c' : Cache sizing} {source : Cache origin}
variable {v v' u : View sizing.capacity} {i : Fin sizing.capacity} {a : Address} {t : Handle}
variable {m : AttributeMap} {fresh : Stamp} {es : List (Effect sizing.capacity)}
variable {o : Outcome Handle sizing}

/-- The cache `c'` is `c` with a changed clone of the attributes `m` as the chunk of `a`, in slot
`i`, for one more reference and for a pending save. -/
structure Clones (c : Cache sizing) (m : AttributeMap) (a : Address) (i : Fin sizing.capacity)
    (c' : Cache sizing) : Prop where
  /-- The slot of the chunk, or the one that was idle the longest. -/
  place : c.tenant? i = some a ∨
    (∀ j, c.tenant? j ≠ some a) ∧ c.mark i = 0 ∧ c.idle.toList.getLast? = some i
  tenant : c'.tenant? = update c.tenant? i (some a)
  clone : ∃ n, c'.readAttributes ⟨i.val, a⟩ = .ok n ∧ n.entries = m.entries ∧ n.isDirty
  mark : c'.mark i = (c.markOf a).getD 0 + 1 + if c.pending.contains i then 0 else 1
  pending : ∀ j, c'.pending.contains j = (decide (j = i) || c.pending.contains j)
  marks : ∀ j ≠ i, c'.mark j = c.mark j
  others : ∀ j ≠ i, ∀ b, c.tenant? j = some b → c'.read ⟨j.val, b⟩ = c.read ⟨j.val, b⟩

/-- What a fork of the attributes `m` to `a` answers and leaves behind. It succeeds if there is a
place for the clone. -/
structure Forks (c : Cache sizing) (m : AttributeMap) (a : Address) (o : Outcome Handle sizing) :
    Prop where
  isOk : o.1.isOk ↔ (∃ i, c.tenant? i = some a) ∨ ∃ i, c.mark i = 0
  clones : ∀ t, o.1 = .ok t → ∃ i, t = ⟨i.val, a⟩ ∧ c.Clones m a i o.2
  refused : ∀ f, o.1 = .error f → o.2 = c

theorem Holding.takes (h : Holding v a (Payload.ofAddress a fresh) i es) (hrun : v.Run es u) :
    v.Takes u i a := by
  cases h with
  | cached hi =>
      obtain ⟨-, rfl⟩ := hrun
      exact View.takes_retain hi
  | brought p ha hmake =>
      obtain ⟨-, -, hlast, rfl, -⟩ := (Holding.brought p ha hmake).occupies ha hrun
      exact View.takes_occupy ha hlast

/-- The listener of the clone is told of the change. -/
theorem eq_of_run_forked (h : u.Run (rewriting i a (forkedPayload m)) v') :
    v' = (u.write i (forkedPayload m).forgetNotices).queue i := by
  have hnotices : 0 < (forkedPayload m).tracker.notices := Nat.one_pos
  rw [rewriting, if_pos hnotices] at h
  obtain ⟨-, -, rfl⟩ := h
  rfl

namespace Shows

theorem markOf_eq (h : c.Shows v) (htakes : v.Takes u i a) :
    (c.markOf a).getD 0 = if v.tenant i = some a then v.mark i else 0 := by
  rcases htakes.place with hi | ⟨ha, -⟩
  · rw [markOf, h.find_eq_some_iff.2 hi, if_pos hi, Option.map_some, Option.getD_some, h.mark]
  · rw [markOf, h.find_eq_none_iff.2 ha, if_neg (ha i)]
    rfl

theorem clones (h : c.Shows v) (htakes : v.Takes u i a)
    (h' : c'.Shows ((u.write i (forkedPayload m).forgetNotices).queue i)) : c.Clones m a i c' := by
  obtain ⟨w, hw⟩ : ∃ w, w = (u.write i (forkedPayload m).forgetNotices).queue i := ⟨_, rfl⟩
  rw [← hw] at h'
  have htenant : w.tenant = update v.tenant i (some a) := by
    rw [hw, View.tenant_queue]
    exact htakes.tenant
  have hpayload : w.payload = update u.payload i (some (forkedPayload m).forgetNotices) := by
    rw [hw, View.payload_queue]
    rfl
  have hmark (j) : w.mark j = u.mark j + if j = i ∧ i ∉ v.pending then 1 else 0 := by
    rw [hw, View.mark_queue, ← htakes.pending]
    rfl
  refine ⟨?_, ?_, ?_, ?_, fun j => ?_, fun j hij => ?_, fun j hij b hj => ?_⟩
  · rw [h.tenant, h.mark, h.idle.toList_eq]
    refine htakes.place.imp_right fun ⟨ha, hlast⟩ => ⟨ha, ?_, hlast⟩
    exact h.tidy.mem_idle.1 (List.mem_of_getLast? hlast)
  · rw [h'.tenant, htenant, h.tenant]
  · have hi : w.Current ⟨i.val, a⟩ i := ⟨rfl, by rw [htenant, update_self]⟩
    obtain ⟨p, hp, hread⟩ := h'.read_eq hi
    rw [hpayload, update_self] at hp
    rw [readAttributes, hread, ← Option.some.inj hp]
    exact ⟨_, rfl, rfl, rfl⟩
  · rw [h'.mark, hmark, htakes.mark, h.markOf_eq htakes, h.contains_pending]
    by_cases hqueued : i ∈ v.pending <;> simp [hqueued]
  · rw [h'.contains_pending, h.contains_pending, hw, ← htakes.pending, ← Bool.decide_or]
    exact decide_eq_decide.2 View.mem_pending_queue
  · rw [h'.mark, hmark, (htakes.others hij).1, if_neg fun hand => hij hand.1, Int.add_zero, h.mark]
  · rw [h.tenant] at hj
    obtain ⟨p, hp, hread⟩ := h.read_eq (t := ⟨j.val, b⟩) ⟨rfl, hj⟩
    have hj' : w.Current ⟨j.val, b⟩ j := ⟨rfl, by rw [htenant, update_of_ne hij, hj]⟩
    obtain ⟨p', hp', hread'⟩ := h'.read_eq hj'
    rw [hpayload, update_of_ne hij, (htakes.others hij).2, hp] at hp'
    rw [hread, hread', Option.some.inj hp']

end Shows

theorem Forked.isOk_iff (ho : Forked c v source t a fresh o) (hbuckets : 0 < sizing.buckets)
    (hkind : a.kind = .attributes) (hm : source.readAttributes t = .ok m) :
    o.1.isOk ↔ (∃ i, v.tenant i = some a) ∨ v.idle ≠ [] := by
  cases ho with
  | done i es m' c' u v' _ _ hes hheld hrun hshows =>
      refine iff_of_true rfl ?_
      rcases (hes.takes hheld).place with hi | ⟨-, hlast⟩
      · exact .inl ⟨i, hi⟩
      · exact .inr fun hidle => by simp [hidle] at hlast
  | failed f hf =>
      refine iff_of_false Bool.false_ne_true ?_
      cases hf hkind m hm with
      | noBuckets hnone => omega
      | refused e ha hmake =>
          rw [Payload.ofAddress, hkind] at hmake
          cases hmake
      | full p ha hmake hidle =>
          rintro (⟨i, hi⟩ | hroom)
          · exact ha i hi
          · exact hroom hidle

theorem Shows.forks (h : c.Shows v) (hbuckets : 0 < sizing.buckets) (hkind : a.kind = .attributes)
    (hm : source.readAttributes t = .ok m) (fresh : Stamp) :
    c.Forks m a (c.fork source t a fresh) := by
  have ho := h.fork source t a fresh
  refine ⟨?_, fun t' ht' => ?_, fun f hf => ho.same hf⟩
  · rw [ho.isOk_iff hbuckets hkind hm, h.idle_ne_nil_iff, h.tenant]
  · generalize c.fork source t a fresh = o at ho ht' ⊢
    cases ho with
    | failed f hf => cases ht'
    | done i es m' c' u v' _ hm' hes hheld hrun hshows =>
        cases ht'
        obtain rfl := Except.ok.inj (hm.symm.trans hm')
        rw [eq_of_run_forked hrun] at hshows
        exact ⟨i, rfl, h.clones (hes.takes hheld) hshows⟩

end Cache

namespace Books

open Cache

/-- After any calls, a fork of the attributes behind a current handle makes a changed clone of them
the chunk of any other address of attributes, or of the same one. It succeeds exactly if this
address is cached or a slot has no mark. The clone has the attributes that the origin had before the
call, and counts one more reference and one more pending save, unless its slot was queued already.
No other chunk changes, except that a chunk without a mark, perhaps the origin, is evicted to make
room. The same is true if the origin is in another cache. -/
theorem forks_snapshot (sizing : Sizing) (hash : Address → UInt64) (calls : List Call) :
    let c := ((opened sizing hash).run calls).cache
    (∀ t m a fresh, c.readAttributes t = .ok m → a.kind = .attributes →
      c.Forks m a (c.fork c t a fresh)) ∧
    ∀ (origin : Sizing) (source : Cache origin) t m a fresh, 0 < sizing.buckets →
      source.readAttributes t = .ok m → a.kind = .attributes →
      c.Forks m a (c.fork source t a fresh) := by
  intro c
  obtain ⟨v, h, -⟩ := shows_run (b := opened sizing hash) (.emptyWith hash) calls
  refine ⟨fun t m a fresh hm hkind => ?_,
    fun origin source t m a fresh hbuckets hm hkind => h.forks hbuckets hkind hm fresh⟩
  have hbuckets : 0 < sizing.buckets := by
    obtain ⟨i, ⟨-, hi⟩, -⟩ := h.current_of_read (read_of_readAttributes hm)
    refine Nat.pos_of_ne_zero fun hnone => ?_
    rw [← h.tenant, h.indexed.tenant?_eq_none hnone] at hi
    cases hi
  exact h.forks hbuckets hkind hm fresh

/-- The only chunk is released with one attribute and evicted by its own clone. Another cache has
room for a clone too. -/
theorem forks_snapshot_released :
    let t : Handle := ⟨0, .attributes 0 10 1⟩
    let a : Address := .attributes 0 20 1
    let calls := [.holdOrCreate t.address 0,
      .access t fun p => .ok (p.operate [.mutate (.set 5 .long (.long 7)) (.unknown 1)]),
      .save {}, .releaseHandle t]
    let c := ((opened ⟨1, 1⟩ fun _ => 0).run calls).cache
    let d := ((opened ⟨1, 1⟩ fun _ => 0).run []).cache
    (c.tenant? 0 = some t.address ∧ c.mark 0 = 0) ∧ ∃ m, c.readAttributes t = .ok m ∧
      m.get? 5 = some (.long 7) ∧ c.Forks m a (c.fork c t a 0) ∧ d.Forks m a (d.fork c t a 0) ∧
      (c.fork c t a 0).1 = .ok ⟨0, a⟩ ∧ (c.fork c t a 0).2.mark 0 = 2 := by
  intro t a calls c d
  have hread : (c.readAttributes t).map (·.get? 5) = .ok (some (.long 7)) := by decide +kernel
  obtain ⟨m, hm, hvalue⟩ := Field.exists_of_map_eq_ok hread
  have hc : c.Forks m a (c.fork c t a 0) :=
    (forks_snapshot ⟨1, 1⟩ (fun _ => 0) calls).1 t m a 0 hm rfl
  have hd : d.Forks m a (d.fork c t a 0) :=
    (forks_snapshot ⟨1, 1⟩ (fun _ => 0) []).2 ⟨1, 1⟩ c t m a 0 (by decide) hm rfl
  exact ⟨⟨by decide +kernel, by decide +kernel⟩, m, hm, hvalue, hc, hd, by decide +kernel,
    by decide +kernel⟩

end Books

end ChunkCache
