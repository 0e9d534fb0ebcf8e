import ChunkCache.Proofs.Cache.Release
import ChunkCache.Proofs.Cache.Save
import ChunkCache.Proofs.Exact

namespace ChunkCache

open Function

/-- A call of a cache. The payloads, the stores and the sources of forks are those of the caller, so
no run of calls depends on what the caller does with them in between. -/
inductive Call where
  | holdCached (a : Address)
  | holdOrCreate (a : Address) (fresh : Stamp)
  | holdOrPut (a : Address) (payload : Payload)
  | request (s : RecordStore) (a : Address)
  | complete (a : Address) (record : Bytes) (fresh : Stamp)
  | holdOrFetch (s : RecordStore) (a : Address) (fresh : Stamp)
  | fork (t : Handle) (a : Address) (fresh : Stamp)
  | forkFrom (origin : Sizing) (source : Cache origin) (t : Handle) (a : Address) (fresh : Stamp)
  | access (t : Handle) (act : Payload → Except Error Payload)
  | load (t : Handle) (buffer : Bytes) (fresh : Stamp)
  | releaseOf (a : Address)
  | releaseHandle (t : Handle)
  | requestSave (t : Handle)
  | requestSaveAt (number : Nat)
  | discard (t : Handle)
  | save (s : RecordStore)

/-- What a call did to the references of its caller. -/
inductive Receipt where
  | granted (a : Address)
  | returned (a : Address)
  | neither

/-- The references that are counted after a receipt. -/
def Receipt.post (held : Address → Nat) : Receipt → Address → Nat
  | granted a => update held a (held a + 1)
  | returned a => update held a (held a - 1)
  | neither => held

namespace Cache

variable {sizing : Sizing} {c : Cache sizing} {v v' : View sizing.capacity}

/-- The receipt for a handle of `a`. -/
def grant {α : Type} (a : Address) : Outcome α sizing → Receipt × Cache sizing
  | (.ok _, c) => (.granted a, c)
  | (.error _, c) => (.neither, c)

def grantIf {α : Type} (a : Address) : Outcome (Option α) sizing → Receipt × Cache sizing
  | (.ok (some _), c) => (.granted a, c)
  | (_, c) => (.neither, c)

def giveBack (a : Address) : Outcome (Option Int) sizing → Receipt × Cache sizing
  | (.ok (some _), c) => (.returned a, c)
  | (_, c) => (.neither, c)

theorem snd_grant {α : Type} {a : Address} (o : Outcome α sizing) : (grant a o).2 = o.2 := by
  obtain ⟨answer, c⟩ := o
  cases answer <;> rfl

theorem snd_grantIf {α : Type} {a : Address} (o : Outcome (Option α) sizing) :
    (grantIf a o).2 = o.2 := by
  rcases o with ⟨_ | _ | t, c⟩ <;> rfl

theorem snd_giveBack {a : Address} (o : Outcome (Option Int) sizing) :
    (giveBack a o).2 = o.2 := by
  rcases o with ⟨_ | _ | left, c⟩ <;> rfl

def perform (c : Cache sizing) : Call → Receipt × Cache sizing
  | .holdCached a => grantIf a (c.holdCached a)
  | .holdOrCreate a fresh => grant a (c.holdOrCreate a fresh)
  | .holdOrPut a payload => grant a (c.holdOrPut a payload)
  | .request s a =>
    match c.request s a with
    | (.ok (.cached _), c) => (.granted a, c)
    | (_, c) => (.neither, c)
  | .complete a record fresh => grant a (c.complete a record fresh)
  | .holdOrFetch s a fresh => grantIf a (c.holdOrFetch s a fresh)
  | .fork t a fresh => grant a (c.fork c t a fresh)
  | .forkFrom _ source t a fresh => grant a (c.fork source t a fresh)
  | .access t act => (.neither, (c.access t fun p => (act p).map (((), ·))).2)
  | .load t buffer fresh => (.neither, (c.load t buffer fresh).2)
  | .releaseOf a => giveBack a (c.releaseOf a)
  | .releaseHandle t => giveBack t.address (c.releaseHandle t)
  | .requestSave t => (.neither, (c.requestSave t).2)
  | .requestSaveAt number => (.neither, (c.requestSaveAt number).2)
  | .discard t =>
    match c.discard t with
    | (.ok (), c) => (.returned t.address, c)
    | (.error _, c) => (.neither, c)
  | .save s => (.neither, (c.save s).2.1)

end Cache

/-- A cache and the references that its callers hold. -/
structure Books (sizing : Sizing) where
  cache : Cache sizing
  held : Address → Nat

namespace Books

variable {sizing : Sizing}

def opened (sizing : Sizing) (hash : Address → UInt64) : Books sizing :=
  ⟨.emptyWith sizing hash, fun _ => 0⟩

def after (b : Books sizing) (call : Call) : Books sizing :=
  ⟨(b.cache.perform call).2, (b.cache.perform call).1.post b.held⟩

def run (b : Books sizing) (calls : List Call) : Books sizing := calls.foldl after b

end Books

/-- The address that a call is about, if it can change the chunk of one. -/
def Call.target : Call → Option Address
  | .holdOrCreate a _ | .holdOrPut a _ | .complete a _ _ | .holdOrFetch _ a _ | .fork _ a _
  | .forkFrom _ _ _ a _ => some a
  | .access t _ | .load t _ _ | .discard t => some t.address
  | .holdCached _ | .request _ _ | .releaseOf _ | .releaseHandle _ | .requestSave _
  | .requestSaveAt _ | .save _ => none

def Call.Releases {n : Nat} (v : View n) : Call → Fin n → Prop
  | .releaseOf a, i => v.tenant i = some a
  | .releaseHandle t, i => v.Current t i
  | _, _ => False

/-- What the effects of a call have to do with the call and its receipt. -/
structure Traced {n : Nat} (call : Call) (v : View n) (receipt : Receipt) (es : List (Effect n)) :
    Prop where
  post : ∀ held, es.foldl Effect.post held = receipt.post held
  target : ∀ e ∈ es, ∀ a, e.target = some a → call.target = some a
  vacated : ∀ i a, Effect.vacate i a ∈ es → ∃ t, call = .discard t ∧ t.address = a
  covered : (∀ held, Covered held es) ∨
    ∃ i a, es = [.release i a] ∧ receipt = .returned a ∧ call.Releases v i
  returnsLast : ReturnsLast es

section Pieces

variable {n : Nat} {call : Call} {v : View n} {receipt : Receipt} {es es' : List (Effect n)}

def Keeping (es : List (Effect n)) : Prop := ∀ e ∈ es, ¬e.Returns

theorem Keeping.append (h : Keeping es) (h' : Keeping es') : Keeping (es ++ es') := by
  intro e he
  rcases List.mem_append.1 he with he | he
  · exact h e he
  · exact h' e he

theorem Keeping.covered (h : Keeping es) (held : Address → Nat) : Covered held es := by
  induction es generalizing held with
  | nil => trivial
  | cons e es ih =>
      refine ⟨?_, ih (fun e' he' => h e' (List.mem_cons_of_mem _ he')) _⟩
      rintro i a rfl
      exact absurd trivial (h _ List.mem_cons_self)

theorem Keeping.returnsLast (h : Keeping es) (h' : ReturnsLast es') : ReturnsLast (es ++ es') := by
  induction es with
  | nil => exact h'
  | cons e es ih =>
      refine ⟨fun he => absurd he (h e List.mem_cons_self), ih fun e' he' => ?_⟩
      exact h e' (List.mem_cons_of_mem _ he')

theorem covered_append {held : Address → Nat} (h : Covered held es)
    (h' : Covered (es.foldl Effect.post held) es') : Covered held (es ++ es') := by
  induction es generalizing held with
  | nil => exact h'
  | cons e es ih => exact ⟨h.1, ih h.2 h'⟩

theorem Keeping.traced (h : Keeping es)
    (hpost : ∀ held, es.foldl Effect.post held = receipt.post held)
    (htarget : ∀ e ∈ es, ∀ a, e.target = some a → call.target = some a) :
    Traced call v receipt es where
  post := hpost
  target := htarget
  vacated i a hmem := absurd trivial (h _ hmem)
  covered := .inl h.covered
  returnsLast := by
    have hlast : ReturnsLast (es ++ []) := h.returnsLast trivial
    rwa [List.append_nil] at hlast

theorem traced_nil : Traced call v .neither [] :=
  Keeping.traced (by simp [Keeping]) (fun _ => rfl) (by simp)

theorem traced_queue {i : Fin n} : Traced call v .neither [.queue i] :=
  Keeping.traced (by simp [Keeping, Effect.Returns]) (fun _ => rfl) (by simp [Effect.target])

theorem traced_retain {i : Fin n} {a : Address} : Traced call v (.granted a) [.retain i a] :=
  Keeping.traced (by simp [Keeping, Effect.Returns]) (fun _ => rfl) (by simp [Effect.target])

end Pieces

namespace Cache

variable {sizing : Sizing} {c : Cache sizing} {v v' : View sizing.capacity}
variable {i : Fin sizing.capacity} {a : Address} {p : Payload} {make : Except Error Payload}
variable {es es' : List (Effect sizing.capacity)} {call : Call} {held : Address → Nat}

section Pieces

theorem keeping_rewriting : Keeping (rewriting i a p) := by
  unfold rewriting
  split <;> simp [Keeping, Effect.Returns]

theorem post_rewriting : (rewriting i a p).foldl Effect.post held = held := by
  unfold rewriting
  split <;> rfl

theorem target_rewriting {e : Effect sizing.capacity} {b : Address} (he : e ∈ rewriting i a p)
    (hb : e.target = some b) : b = a := by
  rcases List.mem_cons.1 he with rfl | he
  · exact (Option.some.inj hb).symm
  · split at he
    · rw [List.mem_singleton.1 he] at hb
      cases hb
    · exact absurd he List.not_mem_nil

theorem Holding.keeping (h : Holding v a make i es) : Keeping es := by
  cases h with
  | cached hi => simp [Keeping, Effect.Returns]
  | brought p ha hmake =>
      unfold admission
      split <;> simp [Keeping, Effect.Returns]

theorem Holding.post (h : Holding v a make i es) :
    es.foldl Effect.post held = update held a (held a + 1) := by
  cases h with
  | cached hi => rfl
  | brought p ha hmake =>
      unfold admission
      split <;> rfl

theorem Holding.target {e : Effect sizing.capacity} {b : Address} (h : Holding v a make i es)
    (he : e ∈ es) (hb : e.target = some b) : b = a := by
  cases h with
  | cached hi => simp_all [Effect.target]
  | brought p ha hmake =>
      rcases List.mem_cons.1 he with rfl | he
      · exact (Option.some.inj hb).symm
      · split at he
        · rw [List.mem_singleton.1 he] at hb
          cases hb
        · exact absurd he List.not_mem_nil

theorem Holding.traced (h : Holding v a make i es) (hcall : call.target = some a) :
    Traced call v (.granted a) es :=
  h.keeping.traced (fun _ => h.post) fun e he b hb => by rw [hcall, h.target he hb]

theorem Holding.traced_rewriting (h : Holding v a make i es) (hcall : call.target = some a) :
    Traced call v (.granted a) (es ++ rewriting i a p) := by
  refine (h.keeping.append keeping_rewriting).traced (fun held => ?_) fun e he b hb => ?_
  · rw [List.foldl_append, post_rewriting, h.post]
    rfl
  · rcases List.mem_append.1 he with he | he
    · rw [hcall, h.target he hb]
    · rw [hcall, target_rewriting he hb]

/-- A reference that is granted and taken back at once. -/
theorem Holding.traced_release (h : Holding v a make i es) (hcall : call.target = some a) :
    Traced call v .neither (es ++ [.release i a]) where
  post held := by
    rw [List.foldl_append, h.post]
    change update (update held a (held a + 1)) a (update held a (held a + 1) a - 1) = held
    rw [update_self, update_idem, Nat.add_sub_cancel, update_eq_self]
  target e he b hb := by
    rcases List.mem_append.1 he with he | he
    · rw [hcall, h.target he hb]
    · rw [List.mem_singleton] at he
      rw [he] at hb
      cases hb
  vacated j b hmem := by
    rcases List.mem_append.1 hmem with hmem | hmem
    · exact absurd trivial (h.keeping _ hmem)
    · simp at hmem
  covered := by
    refine .inl fun held => covered_append (h.keeping.covered held) ⟨?_, trivial⟩
    intro j b hj
    cases hj
    rw [h.post, update_self]
    exact Nat.succ_pos _
  returnsLast := h.keeping.returnsLast ⟨fun _ => rfl, trivial⟩

end Pieces

/-- What a call does is told by a run of effects. -/
def Tells (call : Call) (v : View sizing.capacity) (result : Receipt × Cache sizing) : Prop :=
  ∃ es v', v.Run es v' ∧ result.2.Shows v' ∧ Traced call v result.1 es

theorem Shows.tells_self (h : c.Shows v) : Tells call v (.neither, c) :=
  ⟨[], v, rfl, h, traced_nil⟩

theorem Shows.tells_queue (h : c.Shows v) : Tells call v (.neither, c.queueForSave i) :=
  ⟨[.queue i], _, .single trivial, h.queueForSave, traced_queue⟩

theorem Shows.tells_retain (h : c.Shows v) (hi : v.tenant i = some a) :
    Tells call v (.granted a, c.retain i) :=
  ⟨[.retain i a], _, .single hi, h.retain, traced_retain⟩

theorem Held.tells {o : Outcome (Fin sizing.capacity) sizing} (ho : Held c v a make o)
    (h : c.Shows v) (hcall : call.target = some a) : Tells call v (grant a (toHandle a o)) := by
  cases ho with
  | error f hf => exact h.tells_self
  | ok i es c' v' hes hrun hshows => exact ⟨es, v', hrun, hshows, hes.traced hcall⟩

theorem Completed.tells {record : Bytes} {fresh : Stamp} {o : Outcome Handle sizing}
    (ho : Completed c v a record fresh o) (h : c.Shows v) (hcall : call.target = some a) :
    Tells call v (grant a o) := by
  cases ho with
  | failed f hf => exact h.tells_self
  | done i es p p' c' u v' hes hheld hp hload hrun hshows =>
      exact ⟨_, v', hheld.append hrun, hshows, hes.traced_rewriting hcall⟩
  | undone i es p e c' u hes hheld hp hload hshows =>
      have hrelease : u.Run [.release i a] (u.release i) := .single (hes.tenant hheld)
      exact ⟨_, _, hheld.append hrelease, hshows, hes.traced_release hcall⟩

theorem Forked.tells {origin : Sizing} {source : Cache origin} {t : Handle} {fresh : Stamp}
    {o : Outcome Handle sizing} (ho : Forked c v source t a fresh o) (h : c.Shows v)
    (hcall : call.target = some a) : Tells call v (grant a o) := by
  cases ho with
  | failed f hf => exact h.tells_self
  | done i es m c' u v' hkind hm hes hheld hrun hshows =>
      exact ⟨_, v', hheld.append hrun, hshows, hes.traced_rewriting hcall⟩

theorem Accessed.tells {α : Type} {t : Handle} {act : Payload → Except Error (α × Payload)}
    {o : Outcome α sizing} (ho : Accessed c v t act o) (h : c.Shows v)
    (hcall : call.target = some t.address) : Tells call v (.neither, o.2) := by
  cases ho with
  | refused i p e hi hp hact => exact h.tells_self
  | stale e ht => exact h.tells_self
  | done i p p' answer c' v' hi hp hact hrun hshows =>
      refine ⟨_, v', hrun, hshows, keeping_rewriting.traced (fun _ => post_rewriting) ?_⟩
      intro e he b hb
      rw [hcall, target_rewriting he hb]

theorem Released.tells {o : Outcome (Option Int) sizing} (ho : Released c (call.Releases v) o)
    (h : c.Shows v) (htenant : ∀ i, call.Releases v i → v.tenant i = some a) :
    Tells call v (giveBack a o) := by
  cases ho with
  | absent hi => exact h.tells_self
  | aborted f hi => exact h.tells_self
  | released i hi =>
      refine ⟨[.release i a], _, .single (htenant i hi), h.release, ?_⟩
      constructor
      · intro held
        rfl
      · simp [Effect.target]
      · simp
      · exact .inr ⟨i, a, rfl, rfl, hi⟩
      · exact ⟨fun _ => rfl, trivial⟩

theorem Looked.tells {o : Outcome (Option Handle) sizing} (ho : Looked c v a o) (h : c.Shows v) :
    Tells call v (grantIf a o) := by
  cases ho with
  | cached i hi => exact h.tells_retain hi
  | missing ha => exact h.tells_self
  | noBuckets hbuckets => exact h.tells_self

theorem Fetched.tells {s : RecordStore} {fresh : Stamp} {o : Outcome (Option Handle) sizing}
    (ho : Fetched c v s a fresh o) (h : c.Shows v) (hcall : call.target = some a) :
    Tells call v (grantIf a o) := by
  cases ho with
  | cached i hi => exact h.tells_retain hi
  | missing ha hread => exact h.tells_self
  | unread e ha hread => exact h.tells_self
  | noBuckets hbuckets => exact h.tells_self
  | completed record ha hread hcomplete =>
      have htells : Tells call v (grant a (c.complete a record fresh)) := hcomplete.tells h hcall
      generalize c.complete a record fresh = o at htells ⊢
      obtain ⟨answer, c'⟩ := o
      cases answer with
      | error f => exact htells
      | ok t => exact htells

theorem tells_vacate {t : Handle} {c' : Cache sizing} (hi : v.tenant i = some t.address)
    (hmark : v.mark i = if i ∈ v.pending then 2 else 1) (hshows : c'.Shows (v.vacate i)) :
    Tells (.discard t) v (.returned t.address, c') := by
  refine ⟨[.vacate i t.address], _, .single ⟨hi, hmark⟩, hshows, ?_⟩
  constructor
  · intro held
    rfl
  · intro e he b hb
    rw [List.mem_singleton.1 he] at hb
    exact hb
  · intro j b hmem
    rw [List.mem_singleton, Effect.vacate.injEq] at hmem
    exact ⟨t, rfl, hmem.2.symm⟩
  · refine .inl fun held => ⟨?_, trivial⟩
    rintro j b ⟨⟩
  · exact ⟨fun _ => rfl, trivial⟩

theorem Shows.tells_requeue (h : c.Shows (if i ∈ v.pending then v.requeue i else v)) :
    Tells call v (.neither, c) := by
  split at h
  · rename_i hqueued
    refine ⟨[.requeue i], _, .single hqueued, h, ?_⟩
    exact Keeping.traced (by simp [Keeping, Effect.Returns]) (fun _ => rfl)
      (by simp [Effect.target])
  · exact h.tells_self

theorem Shows.tells_save (h : c.Shows v) (s : RecordStore) :
    Tells call v (.neither, (c.save s).2.1) := by
  refine ⟨[.save], _, .single trivial, (h.save s).1, ?_⟩
  constructor
  · intro held
    rfl
  · simp [Effect.target]
  · simp
  · refine .inl fun held => ⟨?_, trivial⟩
    rintro j b ⟨⟩
  · exact ⟨fun _ => rfl, trivial⟩

theorem Shows.perform (h : c.Shows v) (call : Call) : Tells call v (c.perform call) := by
  cases call with
  | holdCached a => exact (h.holdCached a).tells h
  | holdOrCreate a fresh => exact (h.hold _).tells h rfl
  | holdOrPut a payload => exact (h.hold _).tells h rfl
  | request s a =>
      have hrequest := h.request s a
      rw [Cache.perform]
      generalize c.request s a = o at hrequest ⊢
      cases hrequest with
      | cached i hi => exact h.tells_retain hi
      | stored record ha hread => exact h.tells_self
      | unread e ha hread => exact h.tells_self
      | noBuckets hbuckets => exact h.tells_self
  | complete a record fresh => exact (h.complete a record fresh).tells h rfl
  | holdOrFetch s a fresh => exact (h.holdOrFetch s a fresh).tells h rfl
  | fork t a fresh => exact (h.fork c t a fresh).tells h rfl
  | forkFrom origin source t a fresh => exact (h.fork source t a fresh).tells h rfl
  | access t act => exact (h.access t _).tells h rfl
  | load t buffer fresh => exact (h.load t buffer fresh).tells h rfl
  | releaseOf a => exact (h.releaseOf a).tells h fun i hi => hi
  | releaseHandle t => exact (h.releaseHandle t).tells h fun i hi => hi.2
  | requestSave t =>
      rw [Cache.perform]
      rcases h.requestSave t with ⟨i, hi, heq⟩ | ⟨ht, heq⟩
      · rw [heq]
        exact h.tells_queue
      · rw [heq]
        exact h.tells_self
  | requestSaveAt number =>
      rw [Cache.perform]
      rcases requestSaveAt_cases c number with ⟨i, heq⟩ | heq
      · rw [heq]
        exact h.tells_queue
      · rw [heq]
        exact h.tells_self
  | discard t =>
      have hdiscard := h.discard t
      rw [Cache.perform]
      generalize c.discard t = o at hdiscard ⊢
      cases hdiscard with
      | stale e ht => exact h.tells_self
      | done i c' hi hmark hshows => exact tells_vacate hi.2 hmark hshows
      | referenced i e c' hi hmark hshows => exact hshows.tells_requeue
  | save s => exact h.tells_save s

end Cache

namespace Books

variable {sizing : Sizing} {b : Books sizing} {v : View sizing.capacity}

theorem shows_run (h : b.cache.Shows v) (calls : List Call) :
    ∃ v', (b.run calls).cache.Shows v' ∧ v'.hash = v.hash := by
  induction calls generalizing b v with
  | nil => exact ⟨v, h, rfl⟩
  | cons call calls ih =>
      obtain ⟨es, u, hrun, hshows, -⟩ := h.perform call
      obtain ⟨v', hshows', hhash⟩ := ih (b := b.after call) hshows
      exact ⟨v', hshows', hhash.trans hrun.hash⟩

/-- After any calls, and however the addresses are spread over the buckets, the chain of a bucket
ends and meets the occupied slots of that bucket once each, no address has two slots, and a search
with enough steps for all slots finds what a look at every slot finds. -/
theorem index_exact (sizing : Sizing) (hash : Address → UInt64) (calls : List Call) :
    let c := ((opened sizing hash).run calls).cache
    (∀ bucket : Fin sizing.buckets, ∃ l, Chain c.next? c.buckets[bucket] l ∧ l.Nodup ∧
      ∀ i, i ∈ l ↔ ∃ a, c.tenant? i = some a ∧ (hash a).toNat % sizing.buckets = bucket) ∧
    (∀ i j a, c.tenant? i = some a → c.tenant? j = some a → i = j) ∧
    (∀ a i, c.find a = some i ↔ c.tenant? i = some a) ∧
    (∀ a, c.find a = (List.finRange sizing.capacity).find? fun i => c.tenant? i = some a) ∧
    ∀ a steps, sizing.capacity ≤ steps → c.search a steps (c.chainHead a) = c.find a := by
  intro c
  obtain ⟨v, hshows, hhash⟩ := shows_run (b := opened sizing hash) (.emptyWith hash) calls
  have hindexed : Cache.Indexed c := hshows.indexed
  have hbucketOf : ∀ a, c.bucketOf a = (hash a).toNat % sizing.buckets := by
    intro a
    rw [Cache.bucketOf, hshows.hash, hhash]
    rfl
  refine ⟨fun bucket => ?_, fun i j a hi hj => hindexed.distinct hi hj,
    fun a i => hindexed.find_eq_some_iff, fun a => hindexed.find_eq_scan, fun a steps hsteps => ?_⟩
  · obtain ⟨l, hchain, hlists⟩ := hindexed.chains bucket
    refine ⟨l, ?_, hchain.nodup, fun i => ?_⟩
    · have hstart : c.chainStart bucket = c.buckets[bucket] := by simp [Cache.chainStart]
      rwa [← hstart]
    · simp only [hlists i, hbucketOf]
  · ext i
    rw [hindexed.search_eq_some_iff hsteps, hindexed.find_eq_some_iff]

end Books

end ChunkCache
