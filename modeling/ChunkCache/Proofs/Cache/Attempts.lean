import ChunkCache.Proofs.Cache.References

namespace ChunkCache

/-- What a caller does with the payload behind a handle, as a whole or as one of a certain kind. -/
inductive Use (α : Type) where
  | whole (act : Payload → α × Payload)
  | attributes (act : AttributeMap → α × AttributeMap)
  | divergences (act : Divergences → α × Divergences)
  | timeline (act : Timeline → α × Timeline)
  | generator (act : IdGenerator → α × IdGenerator)

namespace Use

variable {α β : Type} {u : Use α} {u' : Use β} {p : Payload} {e : Error}

def act : Use α → Payload → Except Error (α × Payload)
  | whole act, p => .ok (act p)
  | attributes act, p => p.onAttributes act
  | divergences act, p => p.onDivergences act
  | timeline act, p => p.onTimeline act
  | generator act, p => p.onGenerator act

/-- The kind of payload that is asked for, if it has to be of one. -/
def kind? : Use α → Option Kind
  | whole _ => none
  | attributes _ => some .attributes
  | divergences _ => some .divergences
  | timeline _ => some .timeline
  | generator _ => some .generator

/-- A use is refused for the kind of the payload alone, before anything is done with it. -/
theorem act_eq_error_iff :
    u.act p = .error e ↔ ∃ kind, u.kind? = some kind ∧ p.kind ≠ kind ∧ e = p.mismatch kind := by
  cases u with
  | whole act => exact iff_of_false nofun nofun
  | _ => cases p <;> simp [act, kind?, Payload.onAttributes, Payload.onDivergences,
      Payload.onTimeline, Payload.onGenerator, Payload.kind, eq_comm]

end Use

/-- A call that can be refused. -/
inductive Attempt (α : Type) where
  | create (a : Address) (fresh : Stamp)
  | holdOrCreate (a : Address) (fresh : Stamp)
  | holdOrPut (a : Address) (payload : Payload)
  | fork (t : Handle) (a : Address) (fresh : Stamp)
  | forkFrom (origin : Sizing) (source : Cache origin) (t : Handle) (a : Address) (fresh : Stamp)
  | discard (t : Handle)
  | requestSaveAt (number : Nat)
  | occupantAt (number : Nat)
  | use (t : Handle) (u : Use α)
  | load (t : Handle) (buffer : Bytes) (fresh : Stamp)

namespace Cache

variable {sizing origin : Sizing} {c c' : Cache sizing} {v v' : View sizing.capacity}
variable {i : Fin sizing.capacity} {a : Address} {t : Handle} {make : Except Error Payload}
variable {f : Failure} {α β : Type}

/-- An outcome next to the store, which is not asked. -/
def beside (s : RecordStore) (o : Outcome β sizing) :
    Except Failure Unit × Cache sizing × RecordStore :=
  (o.1.map fun _ => (), o.2, s)

/-- How an attempt ends, and the cache and the store after it. -/
def attempt (c : Cache sizing) (s : RecordStore) :
    Attempt α → Except Failure Unit × Cache sizing × RecordStore
  | .create a fresh => beside s ((Payload.ofAddress a fresh).mapError .refused, c)
  | .holdOrCreate a fresh => beside s (c.holdOrCreate a fresh)
  | .holdOrPut a payload => beside s (c.holdOrPut a payload)
  | .fork t a fresh => beside s (c.fork c t a fresh)
  | .forkFrom _ source t a fresh => beside s (c.fork source t a fresh)
  | .discard t => beside s (c.discard t)
  | .requestSaveAt number => beside s (c.requestSaveAt number)
  | .occupantAt number => beside s ((c.occupantAt number).mapError .refused, c)
  | .use t u => beside s (c.access t u.act)
  | .load t buffer fresh => beside s (c.load t buffer fresh)

/-- The chunks, their marks, the order of the idle slots and the slots that are queued are the
same. -/
structure Unmoved (c c' : Cache sizing) : Prop where
  tenant : c'.tenant? = c.tenant?
  mark : c'.mark = c.mark
  read : ∀ {i a}, c.tenant? i = some a → c'.read ⟨i.val, a⟩ = c.read ⟨i.val, a⟩
  idle : c'.idle.toList = c.idle.toList
  pending : ∀ i, c'.pending.contains i = c.pending.contains i

theorem Unmoved.refl (c : Cache sizing) : c.Unmoved c := ⟨rfl, rfl, fun _ => rfl, rfl, fun _ => rfl⟩

theorem Unmoved.of_eq (h : c' = c) : c.Unmoved c' := h ▸ .refl c

/-- A queued slot may change its place among those that are queued. -/
theorem Shows.unmoved_requeue (h : c.Shows v)
    (h' : c'.Shows (if i ∈ v.pending then v.requeue i else v)) : c.Unmoved c' := by
  obtain ⟨v', hv'⟩ : ∃ v', v' = if i ∈ v.pending then v.requeue i else v := ⟨_, rfl⟩
  rw [← hv'] at h'
  have hsame : v' = { v with pending := v'.pending } ∧ ∀ j, j ∈ v'.pending ↔ j ∈ v.pending := by
    rw [hv']
    split
    · rename_i hi
      refine ⟨rfl, fun j => ?_⟩
      rcases eq_or_ne j i with rfl | hij
      · exact iff_of_true List.mem_cons_self hi
      · simp [View.requeue, hij, List.mem_erase_of_ne hij]
    · exact ⟨rfl, fun j => Iff.rfl⟩
  obtain ⟨heq, hpending⟩ := hsame
  refine ⟨?_, ?_, fun {j b} hj => ?_, ?_, fun j => ?_⟩
  · rw [h'.tenant, heq, h.tenant]
  · rw [h'.mark, heq, h.mark]
  · rw [h.tenant] at hj
    obtain ⟨p, hp, hread⟩ := h.read_eq (t := ⟨j.val, b⟩) ⟨rfl, hj⟩
    obtain ⟨p', hp', hread'⟩ := h'.read_eq (t := ⟨j.val, b⟩) ⟨rfl, by rw [heq, hj]⟩
    rw [heq, hp] at hp'
    rw [hread, hread', Option.some.inj hp']
  · rw [h'.idle.toList_eq, heq, h.idle.toList_eq]
  · rw [h'.contains_pending, h.contains_pending, decide_eq_decide, hpending]

section Refused

theorem Held.same {o : Outcome (Fin sizing.capacity) sizing} (ho : Held c v a make o)
    (hf : o.1 = .error f) : o.2 = c := by
  cases ho with
  | ok i es c' v' hes hrun hshows => cases hf
  | error f' hf' => rfl

theorem Forked.same {source : Cache origin} {fresh : Stamp} {o : Outcome Handle sizing}
    (ho : Forked c v source t a fresh o) (hf : o.1 = .error f) : o.2 = c := by
  cases ho with
  | done i es m c' u v' hkind hm hes hheld hrun hshows => cases hf
  | failed f' hf' => rfl

theorem Accessed.same {act : Payload → Except Error (α × Payload)} {o : Outcome α sizing}
    (ho : Accessed c v t act o) (hf : o.1 = .error f) : o.2 = c := by
  cases ho with
  | done i p p' answer c' v' hi hp hact hrun hshows => cases hf
  | refused i p e hi hp hact => rfl
  | stale e ht => rfl

theorem Discarded.unmoved {o : Outcome Unit sizing} (ho : Discarded c v t o) (h : c.Shows v)
    (hf : o.1 = .error f) : c.Unmoved o.2 := by
  cases ho with
  | done i c' hi hmark hshows => cases hf
  | referenced i e c' hi hmark hshows => exact h.unmoved_requeue hshows
  | stale e ht => exact .refl c

theorem error_of_beside {s : RecordStore} {o : Outcome β sizing} (hf : (beside s o).1 = .error f) :
    o.1 = .error f := by
  obtain ⟨answer, c⟩ := o
  cases answer with
  | error f' =>
      cases hf
      rfl
  | ok answer => cases hf

theorem error_of_toHandle {o : Outcome (Fin sizing.capacity) sizing}
    (hf : (toHandle a o).1 = .error f) : o.1 = .error f := by
  obtain ⟨answer, c⟩ := o
  cases answer with
  | error f' =>
      cases hf
      rfl
  | ok answer => cases hf

/-- An attempt that is refused has not moved anything. -/
theorem Shows.unmoved_attempt {s : RecordStore} {x : Attempt α} (h : c.Shows v)
    (hf : (c.attempt s x).1 = .error f) : c.Unmoved (c.attempt s x).2.1 := by
  cases x with
  | create a fresh => exact .refl c
  | occupantAt number => exact .refl c
  | holdOrCreate a fresh =>
      exact .of_eq ((h.hold _).same (error_of_toHandle (error_of_beside hf)))
  | holdOrPut a payload =>
      exact .of_eq ((h.hold _).same (error_of_toHandle (error_of_beside hf)))
  | fork t a fresh => exact .of_eq ((h.fork c t a fresh).same (error_of_beside hf))
  | forkFrom origin source t a fresh =>
      exact .of_eq ((h.fork source t a fresh).same (error_of_beside hf))
  | discard t => exact (h.discard t).unmoved h (error_of_beside hf)
  | requestSaveAt number =>
      have hrefused := error_of_beside hf
      rcases requestSaveAt_cases c number with ⟨i, heq⟩ | heq
      · rw [heq] at hrefused
        cases hrefused
      · exact .of_eq heq
  | use t u => exact .of_eq ((h.access t u.act).same (error_of_beside hf))
  | load t buffer fresh => exact .of_eq ((h.load t buffer fresh).same (error_of_beside hf))

/-- What refuses one use of a payload refuses every other one that asks for the same kind. -/
theorem Shows.access_use_of_error {u : Use α} {u' : Use β} (h : c.Shows v)
    (hkind : u'.kind? = u.kind?) (hf : (c.access t u.act).1 = .error f) :
    c.access t u'.act = (.error f, c) := by
  have hsame := (h.access t u.act).same hf
  unfold Cache.access at hf ⊢
  cases hpayload : c.payload t with
  | error e =>
      rw [hpayload] at hf
      rw [← Except.error.inj hf]
  | ok found =>
      obtain ⟨i, k, p⟩ := found
      rw [hpayload] at hf
      simp only at hf ⊢
      cases hact : u.act p with
      | ok answer =>
          rw [hact] at hf
          cases hf
      | error e =>
          rw [hact] at hf
          rw [Use.act_eq_error_iff, ← hkind, ← Use.act_eq_error_iff] at hact
          rw [hact, ← Except.error.inj hf]

end Refused

section Stale

variable (ht : t.slot < sizing.capacity) (hstale : c.tenant? ⟨t.slot, ht⟩ ≠ some t.address)

include hstale

/-- The refusal of a handle whose slot holds another chunk, or none. -/
theorem payload_of_tenant_ne :
    c.payload t = .error (.badHandle ((c.cell? ⟨t.slot, ht⟩).elim noHandle Fin.val)) := by
  have hslot : slotAt sizing t.slot = .ok ⟨t.slot, ht⟩ := dif_pos ht
  rw [payload, hslot]
  simp only [bind, Except.bind]
  cases hcell : c.cell? ⟨t.slot, ht⟩ with
  | none =>
      have hcell' : (c.slots.get ⟨t.slot, ht⟩).cell = none := hcell
      simp only [hcell']
      rfl
  | some k =>
      have hcell' : (c.slots.get ⟨t.slot, ht⟩).cell = some k := hcell
      simp only [hcell', CellPool.lookup, dif_pos k.isLt]
      cases c.pool.get? k with
      | none => rfl
      | some p => exact if_neg hstale

theorem read_of_tenant_ne :
    c.read t = .error (.badHandle ((c.cell? ⟨t.slot, ht⟩).elim noHandle Fin.val)) := by
  rw [read, payload_of_tenant_ne ht hstale]
  rfl

theorem access_of_tenant_ne (act : Payload → Except Error (α × Payload)) : c.access t act =
    (.error (.refused (.badHandle ((c.cell? ⟨t.slot, ht⟩).elim noHandle Fin.val))), c) := by
  rw [access, payload_of_tenant_ne ht hstale]

theorem discard_of_tenant_ne : c.discard t =
    (.error (.refused (.badHandle ((c.cell? ⟨t.slot, ht⟩).elim noHandle Fin.val))), c) := by
  have hslot : slotAt sizing t.slot = .ok ⟨t.slot, ht⟩ := dif_pos ht
  rw [discard, hslot]
  exact if_neg hstale

theorem currentSlot_of_tenant_ne : c.currentSlot t = .ok none := by
  rw [currentSlot, dif_pos ht, if_neg hstale]

theorem releaseHandle_of_tenant_ne : c.releaseHandle t = (.ok none, c) := by
  rw [releaseHandle, currentSlot_of_tenant_ne ht hstale]

theorem requestSave_of_tenant_ne : c.requestSave t = (.ok (), c) := by
  rw [requestSave, currentSlot_of_tenant_ne ht hstale]

end Stale

end Cache

namespace Books

open Cache

/-- After any calls, an attempt that is refused leaves the chunks, their marks, the idle slots and
the queued ones as they were, so that a refused discard keeps a pending save and its mark; the store
is not touched. A use of a payload is refused without being begun, since any other use that asks for
the same kind is refused in the same way. A handle whose slot holds the chunk of another address, or
none, can neither read, use, change nor discard what is in the slot, and a release or a request to
save through it does nothing. -/
theorem refusals_move_nothing (sizing : Sizing) (hash : Address → UInt64) (calls : List Call) :
    let c := ((opened sizing hash).run calls).cache
    (∀ (α : Type) (x : Attempt α) s f, (c.attempt s x).1 = .error f →
      c.Unmoved (c.attempt s x).2.1 ∧ (c.attempt s x).2.2 = s) ∧
    (∀ (α β : Type) t (u : Use α) (u' : Use β) f, u'.kind? = u.kind? →
      (c.access t u.act).1 = .error f → c.access t u'.act = (.error f, c)) ∧
    ∀ t (ht : t.slot < sizing.capacity), c.tenant? ⟨t.slot, ht⟩ ≠ some t.address →
      let refusal : Error := .badHandle ((c.cell? ⟨t.slot, ht⟩).elim noHandle Fin.val)
      c.releaseHandle t = (.ok none, c) ∧ c.requestSave t = (.ok (), c) ∧
      c.discard t = (.error (.refused refusal), c) ∧ c.read t = .error refusal ∧
      (∀ buffer fresh, c.load t buffer fresh = (.error (.refused refusal), c)) ∧
      ∀ (α : Type) (u : Use α), c.access t u.act = (.error (.refused refusal), c) := by
  intro c
  obtain ⟨v, h, -⟩ := shows_run (b := opened sizing hash) (.emptyWith hash) calls
  refine ⟨fun α x s f hf => ⟨h.unmoved_attempt hf, ?_⟩,
    fun α β t u u' f hkind hf => h.access_use_of_error hkind hf, fun t ht hstale => ?_⟩
  · cases x <;> rfl
  · exact ⟨releaseHandle_of_tenant_ne ht hstale, requestSave_of_tenant_ne ht hstale,
      discard_of_tenant_ne ht hstale, read_of_tenant_ne ht hstale,
      fun buffer fresh => access_of_tenant_ne ht hstale _,
      fun α u => access_of_tenant_ne ht hstale _⟩

/-- A discard that is refused keeps the pending save of a changed chunk. The chunk is no attribute
map, and a handle of another address has no access to it. -/
theorem refusals_move_nothing_released_once :
    let c := ((opened ⟨1, 1⟩ fun _ => 0).run releasedOnce).cache
    let discarded := c.attempt {} (.discard ⟨0, first⟩ : Attempt Unit)
    let refusal : Failure := .refused (.wrongKind Kind.attributes.name Kind.timeline.name)
    discarded.1 = .error (.refused (.stillReferenced 0 1)) ∧
      (discarded.2.1.mark 0 = 1 ∧ discarded.2.1.pending.contains 0 = true) ∧
      (∀ act : AttributeMap → Bool × AttributeMap,
        c.access ⟨0, first⟩ (Use.attributes act).act = (.error refusal, c)) ∧
      c.tenant? 0 = some first ∧ c.discard ⟨0, second⟩ = (.error (.refused (.badHandle 0)), c) := by
  intro c discarded refusal
  obtain ⟨hmoved, huse, hstale⟩ := refusals_move_nothing ⟨1, 1⟩ (fun _ => 0) releasedOnce
  have hdiscarded : discarded.1 = .error (.refused (.stillReferenced 0 1)) := by decide +kernel
  have hunmoved : c.Unmoved discarded.2.1 := (hmoved Unit _ _ _ hdiscarded).1
  have hkind : (c.access ⟨0, first⟩ (Use.attributes fun m => ((), m)).act).1 = .error refusal := by
    decide +kernel
  have htenant : c.tenant? 0 = some first := by decide +kernel
  have hother : c.tenant? 0 ≠ some second := by decide +kernel
  have hcell : c.cell? 0 = some 0 := by decide +kernel
  refine ⟨hdiscarded, ⟨?_, ?_⟩, fun act => ?_, htenant, ?_⟩
  · rw [hunmoved.mark]
    decide +kernel
  · rw [hunmoved.pending]
    decide +kernel
  · exact huse Unit Bool _ (.attributes fun m => ((), m)) (.attributes act) _ rfl hkind
  · have hrefused := (hstale ⟨0, second⟩ Nat.one_pos hother).2.2.1
    rwa [show c.cell? ⟨0, Nat.one_pos⟩ = some 0 from hcell] at hrefused

/-- A handle is a slot and an address. One whose chunk was discarded is current again when a chunk
of its address comes to lie in its slot, and discards the chunk of its new holder. -/
theorem discarded_handle_current_again :
    let b := opened ⟨1, 4⟩ Address.hash
    let t : Handle := ⟨0, first⟩
    let c := (b.run [.holdOrCreate first 0, .discard t]).cache
    let d := (c.holdOrCreate first 0).2
    Cache.create ⟨1, 4⟩ = .ok b.cache ∧ (b.cache.holdOrCreate first 0).1 = .ok t ∧
      c.tenant? 0 = none ∧ (c.holdOrCreate first 0).1 = .ok t ∧ (d.read t).isOk ∧ d.mark 0 = 1 ∧
      (d.discard t).1 = .ok () ∧ (d.discard t).2.tenant? 0 = none := by
  intro b t c d
  refine ⟨rfl, by decide +kernel, by decide +kernel, by decide +kernel, by decide +kernel, ?_⟩
  exact ⟨by decide +kernel, by decide +kernel, by decide +kernel⟩

end Books

end ChunkCache
