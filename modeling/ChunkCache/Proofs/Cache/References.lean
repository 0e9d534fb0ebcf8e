import ChunkCache.Proofs.Cache.Calls

namespace ChunkCache

/-- What is given back was granted before. -/
def Receipt.Backed (held : Address → Nat) : Receipt → Prop
  | granted _ | neither => True
  | returned a => 0 < held a

instance (held : Address → Nat) : (receipt : Receipt) → Decidable (receipt.Backed held)
  | .granted _ | .neither => isTrue trivial
  | .returned a => inferInstanceAs (Decidable (0 < held a))

namespace Cache

variable {sizing : Sizing} {c : Cache sizing} {v : View sizing.capacity}

def pin (c : Cache sizing) (i : Fin sizing.capacity) : Int := if c.pending.contains i then 1 else 0

/-- A call releases a queued slot whose only mark is that of its pending save. -/
def TakesPin (c : Cache sizing) : Call → Prop
  | .releaseOf a => ∃ i, c.tenant? i = some a ∧ c.pending.contains i = true ∧ c.mark i = 1
  | .releaseHandle t => ∃ i, i.val = t.slot ∧ c.tenant? i = some t.address ∧
      c.pending.contains i = true ∧ c.mark i = 1
  | _ => False

instance (c : Cache sizing) : (call : Call) → Decidable (c.TakesPin call)
  | .releaseOf a => inferInstanceAs (Decidable (∃ i, c.tenant? i = some a ∧ _))
  | .releaseHandle t => inferInstanceAs (Decidable (∃ i : Fin sizing.capacity, i.val = t.slot ∧ _))
  | .holdCached _ | .holdOrCreate _ _ | .holdOrPut _ _ | .request _ _ | .complete _ _ _
  | .holdOrFetch _ _ _ | .fork _ _ _ | .forkFrom _ _ _ _ _ | .access _ _ | .load _ _ _
  | .requestSave _ | .requestSaveAt _ | .discard _ | .save _ => isFalse id

namespace Shows

theorem pin (h : c.Shows v) : c.pin = v.pin := by
  funext i
  rw [Cache.pin, View.pin, h.contains_pending]
  exact if_congr decide_eq_true_iff rfl rfl

theorem takesPin_of_releases {call : Call} {i : Fin sizing.capacity} (h : c.Shows v)
    (hcall : call.Releases v i) (hqueued : i ∈ v.pending) (hmark : v.mark i = 1) :
    c.TakesPin call := by
  have hqueued : c.pending.contains i = true := (h.pending.contains_iff i).2 hqueued
  rw [← h.mark] at hmark
  cases call with
  | releaseOf a =>
      have hi : v.tenant i = some a := hcall
      rw [← h.tenant] at hi
      exact ⟨i, hi, hqueued, hmark⟩
  | releaseHandle t =>
      have hi : v.Current t i := hcall
      exact ⟨i, hi.1, h.tenant ▸ hi.2, hqueued, hmark⟩
  | _ => exact hcall.elim

theorem perform_of_takesPin {call : Call} (h : c.Shows v) (hcall : c.TakesPin call) :
    ∃ i a, v.tenant i = some a ∧ i ∈ v.pending ∧ v.mark i = 1 ∧
      c.perform call = (.returned a, (c.release i).2) := by
  cases call with
  | releaseOf a =>
      obtain ⟨i, hi, hqueued, hmark⟩ := hcall
      rw [h.tenant] at hi
      rw [h.mark] at hmark
      refine ⟨i, a, hi, (h.pending.contains_iff i).1 hqueued, hmark, ?_⟩
      have hreleased := h.releaseOf a
      rw [Cache.perform]
      generalize c.releaseOf a = o at hreleased ⊢
      cases hreleased with
      | absent hnone => exact absurd hi (hnone i)
      | aborted f hnone => exact absurd hi (hnone i)
      | released j hj =>
          obtain rfl := h.tidy.distinct hi hj
          rfl
  | releaseHandle t =>
      obtain ⟨i, hslot, hi, hqueued, hmark⟩ := hcall
      rw [h.tenant] at hi
      rw [h.mark] at hmark
      refine ⟨i, t.address, hi, (h.pending.contains_iff i).1 hqueued, hmark, ?_⟩
      have hreleased := h.releaseHandle t
      rw [Cache.perform]
      generalize c.releaseHandle t = o at hreleased ⊢
      cases hreleased with
      | absent hnone => exact absurd ⟨hslot, hi⟩ (hnone i)
      | aborted f hnone => exact absurd ⟨hslot, hi⟩ (hnone i)
      | released j hj =>
          obtain rfl := h.tidy.distinct hi hj.2
          rfl
  | _ => exact hcall.elim

theorem read_eq {t : Handle} {i : Fin sizing.capacity} (h : c.Shows v) (hi : v.Current t i) :
    ∃ p, v.payload i = some p ∧ c.read t = .ok p := by
  obtain ⟨k, p, hpayload, -, hp⟩ := h.payload_eq hi
  refine ⟨p, hp, ?_⟩
  rw [read, hpayload]
  rfl

end Shows

end Cache

namespace Books

variable {sizing : Sizing} {b : Books sizing} {v : View sizing.capacity} {call : Call}
variable {calls : List Call}

/-- Every mark stands for a reference or for a pending save. -/
def MarksExact (b : Books sizing) : Prop :=
  (∀ i a, b.cache.tenant? i = some a → b.cache.mark i = b.held a + b.cache.pin i) ∧
    ∀ i, b.cache.tenant? i = none → b.cache.mark i = b.cache.pin i

/-- Callers give back only references that were granted and not yet given back. -/
def Honest (b : Books sizing) : List Call → Prop
  | [] => True
  | call :: calls => (b.cache.perform call).1.Backed b.held ∧ (b.after call).Honest calls

instance decidableHonest (b : Books sizing) : (calls : List Call) → Decidable (b.Honest calls)
  | [] => isTrue trivial
  | call :: calls => @instDecidableAnd _ _ inferInstance (decidableHonest (b.after call) calls)

/-- No call takes the mark of a pending save. -/
def KeepsPins (b : Books sizing) : List Call → Prop
  | [] => True
  | call :: calls => ¬b.cache.TakesPin call ∧ (b.after call).KeepsPins calls

instance decidableKeepsPins (b : Books sizing) : (calls : List Call) → Decidable (b.KeepsPins calls)
  | [] => isTrue trivial
  | call :: calls => @instDecidableAnd _ _ inferInstance (decidableKeepsPins (b.after call) calls)

/-- Occupied slots that are queued have a mark and are not idle. -/
def Pinned (b : Books sizing) : Prop :=
  ∀ i a, b.cache.tenant? i = some a → b.cache.pending.contains i = true →
    1 ≤ b.cache.mark i ∧ b.cache.idle.contains i = false

def Accounts (b : Books sizing) (v : View sizing.capacity) : Prop :=
  b.cache.Shows v ∧ v.Exact b.held

namespace Accounts

theorem opened (sizing : Sizing) (hash : Address → UInt64) :
    (Books.opened sizing hash).Accounts (View.empty sizing.capacity hash) :=
  ⟨.emptyWith hash, .empty⟩

theorem marksExact (h : b.Accounts v) : b.MarksExact := by
  obtain ⟨hshows, hexact⟩ := h
  constructor
  · intro i a hi
    rw [hshows.tenant] at hi
    rw [hshows.mark, hshows.pin]
    exact hexact.occupied hi
  · intro i hi
    rw [hshows.tenant] at hi
    rw [hshows.mark, hshows.pin]
    exact hexact.vacant hi

theorem pinned (h : b.Accounts v) : b.Pinned := by
  obtain ⟨hshows, hexact⟩ := h
  intro i a hi hqueued
  have hle := hexact.pin_le_mark (i := i)
  rw [View.pin, if_pos ((hshows.pending.contains_iff i).1 hqueued), ← hshows.mark] at hle
  refine ⟨hle, hshows.idle.not_contains ?_⟩
  rw [hshows.tidy.mem_idle, ← hshows.mark]
  omega

/-- A call that takes no mark of a pending save keeps the account. -/
theorem after (h : b.Accounts v) (hcall : ¬b.cache.TakesPin call) :
    ∃ es v', v.Run es v' ∧ (b.after call).Accounts v' ∧
      Traced call v (b.cache.perform call).1 es := by
  obtain ⟨hshows, hexact⟩ := h
  obtain ⟨es, v', hrun, hshows', htraced⟩ := hshows.perform call
  refine ⟨es, v', hrun, ⟨hshows', ?_⟩, htraced⟩
  change v'.Exact ((b.cache.perform call).1.post b.held)
  rw [← htraced.post]
  rcases htraced.covered with hcovered | ⟨i, a, rfl, -, hreleases⟩
  · exact hexact.run hshows.tidy hrun (hcovered b.held)
  · obtain ⟨hi, rfl⟩ := hrun
    refine hexact.after hshows.tidy hi ?_
    rintro ⟨j, a', heq, hqueued, hmark⟩
    cases heq
    exact hcall (hshows.takesPin_of_releases hreleases hqueued hmark)

theorem run (h : b.Accounts v) (hcalls : b.KeepsPins calls) :
    ∃ v', (b.run calls).Accounts v' := by
  induction calls generalizing b v with
  | nil => exact ⟨v, h⟩
  | cons call calls ih =>
      obtain ⟨es, v', -, h', -⟩ := h.after hcalls.1
      exact ih h' hcalls.2

theorem not_takesPin (h : b.Accounts v) (hcall : (b.cache.perform call).1.Backed b.held) :
    ¬b.cache.TakesPin call := by
  intro htakes
  obtain ⟨hshows, hexact⟩ := h
  obtain ⟨i, a, hi, hqueued, hmark, hperform⟩ := hshows.perform_of_takesPin htakes
  rw [hperform] at hcall
  have hheld : 0 < b.held a := hcall
  rw [hexact.occupied hi, View.pin, if_pos hqueued] at hmark
  omega

theorem keepsPins (h : b.Accounts v) (hcalls : b.Honest calls) : b.KeepsPins calls := by
  induction calls generalizing b v with
  | nil => trivial
  | cons call calls ih =>
      have hpin := h.not_takesPin hcalls.1
      obtain ⟨es, v', -, h', -⟩ := h.after hpin
      exact ⟨hpin, ih h' hcalls.2⟩

/-- What is referenced or queued keeps its slot during a call, unless the call discards it, and
its content, unless the call is about it. -/
theorem keeps {i : Fin sizing.capacity} {a : Address} (h : b.Accounts v)
    (hcall : ¬b.cache.TakesPin call) (hi : b.cache.tenant? i = some a)
    (hneed : 0 < b.held a ∨ b.cache.pending.contains i = true) :
    (∃ t, call = .discard t ∧ t.address = a ∧ (b.after call).held a = 0) ∨
      (b.after call).cache.tenant? i = some a ∧ (call.target ≠ some a →
        ((b.after call).cache.read ⟨i.val, a⟩).map Payload.bare =
          (b.cache.read ⟨i.val, a⟩).map Payload.bare) := by
  obtain ⟨es, v', hrun, h', htraced⟩ := h.after hcall
  obtain ⟨hshows, hexact⟩ := h
  rw [hshows.tenant] at hi
  rw [hshows.pending.contains_iff] at hneed
  rcases hexact.keeps_run hshows.tidy hrun htraced.returnsLast hi hneed with hmem | ⟨hi', hcontent⟩
  · obtain ⟨t, ht, hta⟩ := htraced.vacated i a hmem
    refine .inl ⟨t, ht, hta, h'.2.absent fun j => ?_⟩
    exact hrun.tenant_ne_of_vacate hshows.tidy htraced.returnsLast hmem
  · have htenant : (b.after call).cache.tenant? i = some a := by rw [h'.1.tenant, hi']
    refine .inr ⟨htenant, fun htarget => ?_⟩
    obtain ⟨p, hp, hread⟩ := hshows.read_eq (t := ⟨i.val, a⟩) ⟨rfl, hi⟩
    obtain ⟨p', hp', hread'⟩ := h'.1.read_eq (t := ⟨i.val, a⟩) ⟨rfl, hi'⟩
    have hsame := hcontent fun e he htarget' => htarget (htraced.target e he a htarget')
    rw [View.content, View.content, hp, hp', Option.map_some, Option.map_some,
      Option.some.injEq] at hsame
    rw [hread, hread']
    exact congrArg Except.ok hsame

/-- A chunk that stays referenced stays in its slot, with its content as long as no call is about
it. -/
theorem keeps_run {i : Fin sizing.capacity} {a : Address} (h : b.Accounts v)
    (hcalls : b.KeepsPins calls) (hi : b.cache.tenant? i = some a)
    (hheld : ∀ earlier, earlier <+: calls → 0 < (b.run earlier).held a) :
    (b.run calls).cache.tenant? i = some a ∧ ((∀ call ∈ calls, call.target ≠ some a) →
      ((b.run calls).cache.read ⟨i.val, a⟩).map Payload.bare =
        (b.cache.read ⟨i.val, a⟩).map Payload.bare) := by
  induction calls generalizing b v with
  | nil => exact ⟨hi, fun _ => rfl⟩
  | cons call calls ih =>
      have hnow : 0 < b.held a := hheld [] (List.nil_prefix)
      have hnext : 0 < (b.after call).held a := hheld [call] (by simp)
      obtain ⟨es, v', -, h', -⟩ := h.after hcalls.1
      rcases h.keeps hcalls.1 hi (.inl hnow) with ⟨t, -, -, hzero⟩ | ⟨hi', hread⟩
      · omega
      obtain ⟨hi'', hread'⟩ := ih h' hcalls.2 hi' fun earlier hprefix =>
        hheld (call :: earlier) (List.cons_prefix_cons.2 ⟨rfl, hprefix⟩)
      refine ⟨hi'', fun htarget => ?_⟩
      have hrest := hread' fun call' hmem => htarget call' (List.mem_cons_of_mem _ hmem)
      exact hrest.trans (hread (htarget call List.mem_cons_self))

theorem pinned_run (h : b.Accounts v) :
    (∀ earlier, earlier <+: calls → (b.run earlier).Pinned) ↔ b.KeepsPins calls := by
  induction calls generalizing b v with
  | nil =>
      refine ⟨fun _ => trivial, fun _ earlier hprefix => ?_⟩
      rw [List.prefix_nil.1 hprefix]
      exact h.pinned
  | cons call calls ih =>
      constructor
      · intro hpinned
        have hcall : ¬b.cache.TakesPin call := by
          intro htakes
          obtain ⟨i, a, hi, hqueued, hmark, hperform⟩ := h.1.perform_of_takesPin htakes
          have hafter : (b.after call).cache = (b.cache.release i).2 := by
            rw [Books.after, hperform]
          rw [← h.1.tenant] at hi
          rw [← h.1.pending.contains_iff] at hqueued
          rw [← h.1.mark] at hmark
          have hidle := hpinned [call] (by simp) i a
          change (b.after call).cache.tenant? i = _ → (b.after call).cache.pending.contains i = _ →
            1 ≤ (b.after call).cache.mark i ∧ _ at hidle
          rw [hafter, Cache.sameLayout_release.tenant, Cache.pending_release,
            Cache.mark_release (by omega), hmark, if_pos rfl] at hidle
          exact absurd (hidle hi hqueued).1 (by omega)
        obtain ⟨es, v', -, h', -⟩ := h.after hcall
        refine ⟨hcall, (ih h').1 fun earlier hprefix => ?_⟩
        exact hpinned (call :: earlier) (List.cons_prefix_cons.2 ⟨rfl, hprefix⟩)
      · rintro ⟨hcall, hcalls⟩ earlier hprefix
        obtain ⟨es, v', -, h', -⟩ := h.after hcall
        cases earlier with
        | nil => exact h.pinned
        | cons call' earlier =>
            obtain ⟨rfl, hrest⟩ := List.cons_prefix_cons.1 hprefix
            exact (ih h').2 hcalls earlier hrest

theorem mark_save {s : RecordStore} {i : Fin sizing.capacity} {a : Address} (h : b.Accounts v)
    (hi : b.cache.tenant? i = some a) : (b.after (.save s)).cache.mark i = b.held a := by
  obtain ⟨hshows, hexact⟩ := h
  have hsaved : (b.after (.save s)).cache.Shows v.save := (hshows.save s).1
  have hexact' := hexact.save hshows.tidy
  rw [hshows.tenant, ← View.tenant_save] at hi
  rw [hsaved.mark, hexact'.occupied hi, View.pin_save, Int.add_zero]

end Accounts

/-- For callers who give back only what they were granted, in every state that they can bring about:
the mark of an occupied slot is the number of references to its chunk, and one more if it is queued;
a referenced chunk is cached, and from then on, as long as it is referenced, in the same slot and
with the same content but for calls about it; and no call evicts a chunk that is referenced or
queued. -/
theorem references_exact (sizing : Sizing) (hash : Address → UInt64) (calls : List Call)
    (hcalls : (opened sizing hash).Honest calls) :
    let b := (opened sizing hash).run calls
    b.MarksExact ∧ (∀ a, 0 < b.held a → ∃ i, b.cache.tenant? i = some a) ∧
    (∀ later i a, b.Honest later → b.cache.tenant? i = some a →
      (∀ earlier, earlier <+: later → 0 < (b.run earlier).held a) →
      (b.run later).cache.tenant? i = some a ∧ ((∀ call ∈ later, call.target ≠ some a) →
        ((b.run later).cache.read ⟨i.val, a⟩).map Payload.bare =
          (b.cache.read ⟨i.val, a⟩).map Payload.bare)) ∧
    ∀ call i a, b.Honest [call] → b.cache.tenant? i = some a →
      (b.after call).cache.tenant? i ≠ some a → (∀ t, call = .discard t → t.address ≠ a) →
      b.held a = 0 ∧ b.cache.pending.contains i = false := by
  intro b
  have hopened := Accounts.opened sizing hash
  obtain ⟨v, h⟩ := hopened.run (hopened.keepsPins hcalls)
  refine ⟨h.marksExact, fun a ha => ?_, fun later i a hlater hi hheld => ?_,
    fun call i a hcall hi hleft hdiscard => ?_⟩
  · by_contra hnone
    have habsent : b.held a = 0 := h.2.absent fun i hi => by
      rw [← h.1.tenant] at hi
      exact hnone ⟨i, hi⟩
    omega
  · exact h.keeps_run (h.keepsPins hlater) hi hheld
  · by_contra hneed
    have hneed : 0 < b.held a ∨ b.cache.pending.contains i = true := by
      by_cases hheld : b.held a = 0
      · exact .inr (by simpa [hheld] using hneed)
      · exact .inl (Nat.pos_of_ne_zero hheld)
    rcases h.keeps (h.not_takesPin hcall.1) hi hneed with ⟨t, ht, hta, -⟩ | ⟨hi', -⟩
    · exact hdiscard t ht hta
    · exact hleft hi'

def first : Address := .timeline 0 1

def second : Address := .timeline 0 2

def releasedOnce : List Call :=
  [ .holdOrCreate first 0,
    .access ⟨0, first⟩ fun p => (p.onTimeline fun t => ((), (t.insert 10).1)).map Prod.snd,
    .releaseOf first ]

/-- The marks of a changed timeline that was released are exact: what is left is that of the
pending save. -/
theorem references_exact_released_once :
    (opened ⟨1, 1⟩ fun _ => 0).Honest releasedOnce ∧
      ((opened ⟨1, 1⟩ fun _ => 0).run releasedOnce).MarksExact ∧
      ((opened ⟨1, 1⟩ fun _ => 0).run releasedOnce).cache.mark 0 = 1 :=
  ⟨by decide +kernel, (references_exact _ _ _ (by decide +kernel)).1, by decide +kernel⟩

/-- Every queued slot keeps its mark through a run exactly if no call of the run takes the mark of a
pending save. In such a run no queued chunk leaves its slot other than by a discard, and a save
leaves every chunk the marks of its callers. -/
theorem pinned_iff (sizing : Sizing) (hash : Address → UInt64) (calls : List Call) :
    ((∀ earlier, earlier <+: calls → ((opened sizing hash).run earlier).Pinned) ↔
      (opened sizing hash).KeepsPins calls) ∧
    ((opened sizing hash).KeepsPins calls →
      let b := (opened sizing hash).run calls
      (∀ call i a, ¬b.cache.TakesPin call → b.cache.tenant? i = some a →
        b.cache.pending.contains i = true → (∀ t, call = .discard t → t.address ≠ a) →
        (b.after call).cache.tenant? i = some a) ∧
      ∀ s i a, b.cache.tenant? i = some a → (b.after (.save s)).cache.mark i = b.held a) := by
  have hopened := Accounts.opened sizing hash
  refine ⟨hopened.pinned_run, ?_⟩
  intro hcalls b
  obtain ⟨v, h⟩ := hopened.run hcalls
  refine ⟨fun call i a hcall hi hqueued hdiscard => ?_, fun s i a hi => h.mark_save hi⟩
  rcases h.keeps hcall hi (.inr hqueued) with ⟨t, ht, hta, -⟩ | ⟨hi', -⟩
  · exact absurd hta (hdiscard t ht)
  · exact hi'

theorem pinned_iff_released_once :
    (opened ⟨1, 1⟩ fun _ => 0).KeepsPins releasedOnce ∧
      ∀ earlier, earlier <+: releasedOnce →
        ((opened ⟨1, 1⟩ fun _ => 0).run earlier).Pinned :=
  ⟨by decide +kernel, (pinned_iff _ _ _).1.2 (by decide +kernel)⟩

/-- One release too many takes the mark of the pending save. The slot is then given to another
chunk before its change is saved, and the save takes the mark that the holder of that chunk has. -/
theorem surplus_release_loses_change :
    let b := (opened ⟨1, 1⟩ fun _ => 0).run (releasedOnce ++ [.releaseOf first])
    let b' := b.after (.holdOrCreate second 0)
    (b.cache.tenant? 0 = some first ∧ b.cache.pending.contains 0 = true ∧ b.cache.mark 0 = 0 ∧
        b.cache.idle.contains 0 = true) ∧
      (b'.cache.tenant? 0 = some second ∧ b'.held second = 1) ∧
      (b'.after (.save {})).cache.mark 0 = 0 := by
  decide +kernel

end Books

end ChunkCache
