import ChunkCache.Proofs.Cache.Ledger
import ChunkCache.Proofs.Merge

/-!
Loads in flight. A load reads the record of a chunk when it is requested and merges it when it is
completed, and the caller goes on in between: the chunk may have been brought in by another load,
changed, saved and evicted again. The record wins over what is newer, so what a load shows is told
by the content at its request, the content at its completion, and whether the chunk is cached then.
-/

namespace ChunkCache

open Function

/-- A load between its request and its completion: the record that was read, and what its chunk
held then. -/
structure Loading where
  address : Address
  record : Bytes
  content : Content

/-- The record is the saved form of what the chunk held. -/
def Loading.Genuine (load : Loading) : Prop :=
  ∃ q : Payload, load.record = q.encode ∧ q.content = load.content ∧ q.Regular load.address ∧
    load.content.Fits

theorem Payload.Regular.attributes {a : Address} {p : Payload} (h : p.Regular a)
    (hkind : a.kind = .attributes) : ∃ m, p = .attributes m := by
  have hp := h.kind_eq.trans hkind
  cases p with
  | attributes m => exact ⟨m, rfl⟩
  | _ => cases hp

namespace Cache

variable {sizing : Sizing} {c : Cache sizing} {v : View sizing.capacity} {a : Address}
variable {q : Payload} {fresh : Stamp} {s : RecordStore} {contents saved : Address → Content}
variable {held : Address → Nat}

/-- The ways in which the saved form of `q` can be merged into the chunk of `a`. -/
inductive Merged (c : Cache sizing) (v : View sizing.capacity) (a : Address) (q : Payload)
    (s : RecordStore) (contents saved : Address → Content) : Outcome Handle sizing → Prop
  | found (i : Fin sizing.capacity) (p : Payload) (c' : Cache sizing) (v' : View sizing.capacity)
      (hi : v'.tenant i = some a) (hp : v'.payload i = some p) (hshows : c'.Shows v')
      (hregular : p.Regular a)
      (hcached : ∀ j, v.tenant j = some a → p.content = (contents a).merge q.content)
      (habsent : (∀ j, v.tenant j ≠ some a) → p.content = q.content)
      (hsame : p.content = contents a → v'.Mirrors s contents saved) :
      Merged c v a q s contents saved (.ok ⟨i.val, a⟩, c')
  | failed (f : Failure) : Merged c v a q s contents saved (.error f, c)

section Completion

variable {o : Outcome Handle sizing} (ho : Completed c v a q.encode fresh o) (h : c.Shows v)
variable (hm : v.Mirrors s contents saved) (hq : q.Regular a) (hfits : q.content.Fits)

include ho h hm hq hfits

/-- A record that comes to a cached chunk is merged into it; if that changes nothing, the chunk is
still as it was saved, or queued. -/
theorem Completed.merged_cached {j : Fin sizing.capacity} (hj : v.tenant j = some a) :
    Merged c v a q s contents saved o := by
  cases ho with
  | failed f hf => exact .failed f
  | undone i es r e c' u hes hheld hr hload hshows =>
      cases hes with
      | brought p ha hmake => exact absurd hj (ha j)
      | cached hi =>
          obtain ⟨-, rfl⟩ := hheld
          obtain ⟨p, hp, hreflects⟩ := hm.cached hi
          obtain rfl : p = r := Option.some.inj (hp.symm.trans hr)
          obtain ⟨p', hp', -⟩ :=
            Payload.load_encode_merge hreflects.regular hq hfits (.unknown fresh)
          rw [hp'] at hload
          cases hload
  | done i es r r' c' u v' hes hheld hr hload hrun hshows =>
      cases hes with
      | brought p ha hmake => exact absurd hj (ha j)
      | cached hi =>
          obtain ⟨-, rfl⟩ := hheld
          obtain ⟨p, hp, hreflects⟩ := hm.cached hi
          obtain rfl : p = r := Option.some.inj (hp.symm.trans hr)
          obtain ⟨p', hp', hcontent, hregular⟩ :=
            Payload.load_encode_merge hreflects.regular hq hfits (.unknown fresh)
          obtain rfl : p' = r' := Except.ok.inj (hp'.symm.trans hload)
          rw [hreflects.content_eq] at hcontent
          have hkept : (v.retain i).tenant i = some a := hi
          obtain ⟨hbrings, hpending⟩ := brings_rewriting hkept hrun
          have hforget : p'.forgetNotices.content = p'.content := p'.content_mapTracker _
          refine .found i p'.forgetNotices c' v' hbrings.tenant_self hbrings.payload_self hshows
            ((Payload.regular_mapTracker _).2 hregular) (fun _ _ => hforget.trans hcontent)
            (fun ha => absurd hj (ha j)) fun hsame => ?_
          have hbecomes : Payload.Becomes a (contents a) p p' :=
            ⟨hforget.symm.trans hsame, hregular, (Payload.follows_load hload).imp_right
              fun htracker => ⟨htracker, hreflects.content_eq.symm⟩⟩
          obtain ⟨hreflects', -⟩ := hbecomes.reflects hreflects (h.quiet hp) hpending.2
          rw [← update_eq_self a contents]
          refine hm.put ((View.Brings.retain hi hp).trans hbrings) hshows.tidy hreflects'
            (fun hout => ?_) (hm.fits a)
          exact hm.settled_of_tenant h.tidy hi fun hi' => hout (hpending.2 (.inl hi'))

theorem Completed.merged (hexact : v.Exact held) : Merged c v a q s contents saved o := by
  by_cases hcached : ∃ j, v.tenant j = some a
  · obtain ⟨j, hj⟩ := hcached
    exact ho.merged_cached h hm hq hfits hj
  · have ha : ∀ j, v.tenant j ≠ some a := fun j hj => hcached ⟨j, hj⟩
    cases ho.revives hexact h.tidy ha hq hfits with
    | noBuckets hbuckets => exact .failed _
    | full hidle => exact .failed _
    | found i p c' v' hbrings hshows hout hcontent hregular htracker =>
        refine .found i p c' v' hbrings.tenant_self hbrings.payload_self hshows hregular
          (fun j hj => absurd hj (ha j)) (fun _ => hcontent) fun hsame => ?_
        rw [← update_eq_self a contents]
        exact hm.put hbrings hshows.tidy (.of_clean hsame hregular htracker)
          (fun _ => hm.settled_of_absent ha) (hm.fits a)

end Completion

end Cache

/-- A call that takes no mark of a pending save and leaves every content keeps a ledger faithful. -/
theorem Ledger.Faithful.call {sizing : Sizing} {l : Ledger sizing} {call : Call} (h : l.Faithful)
    (hpin : ¬l.cache.TakesPin call)
    (hm : (l.cache.perform call).2.Mirrored l.store l.contents l.saved) :
    ({ l with toBooks := l.toBooks.after call } : Ledger sizing).Faithful := by
  obtain ⟨v, haccounts, -⟩ := h
  obtain ⟨es, v', -, haccounts', -⟩ := haccounts.after hpin
  obtain ⟨w, hshows, hm'⟩ := hm
  obtain rfl := haccounts'.1.unique hshows
  exact ⟨v', haccounts', hm'⟩

/-- A cache and its store, of which loads are in flight. -/
structure Traffic (sizing : Sizing) extends Ledger sizing where
  loads : List Loading

inductive Event where
  | step (step : Step)
  | request (a : Address)
  /-- Complete the load at this place among those in flight. -/
  | complete (number : Nat) (fresh : Stamp)

namespace Traffic

variable {sizing : Sizing} {f : Traffic sizing} {event : Event} {events : List Event}
variable {load : Loading} {fresh : Stamp} {t : Handle} {a : Address}

def opened (sizing : Sizing) (hash : Address → UInt64) (placement : Placement) :
    Traffic sizing where
  toLedger := .opened sizing hash placement
  loads := []

/-- What a request of the chunk of `a` puts in flight: nothing if the chunk is cached, or has no
record. -/
def requested (f : Traffic sizing) (a : Address) : List Loading :=
  match f.cache.request f.store a with
  | (.ok (.stored (some record)), _) => [⟨a, record, f.contents a⟩]
  | _ => []

/-- A load is no change, so neither its request nor its completion adds to what the chunks hold. -/
def after (f : Traffic sizing) : Event → Traffic sizing
  | .step step => { f with toLedger := f.toLedger.after step }
  | .request a =>
    { f with
      toBooks := f.toBooks.after (.request f.store a)
      loads := f.loads ++ f.requested a }
  | .complete number fresh =>
    match f.loads[number]? with
    | none => f
    | some load =>
      { f with
        toBooks := f.toBooks.after (.complete load.address load.record fresh)
        loads := f.loads.eraseIdx number }

def run (f : Traffic sizing) (events : List Event) : Traffic sizing := events.foldl after f

/-- What holds before each of some events. -/
def Always (P : Traffic sizing → Event → Prop) (f : Traffic sizing) : List Event → Prop
  | [] => True
  | event :: events => P f event ∧ (f.after event).Always P events

def Permits (f : Traffic sizing) : Event → Prop
  | .step step => f.toLedger.Permits step
  | _ => True

/-- What a load shows when it is completed: the record on top of the cached chunk, or alone. -/
def shown (f : Traffic sizing) (load : Loading) : Content :=
  if (f.cache.find load.address).isSome then (f.contents load.address).merge load.content
  else load.content

/-- A completion that succeeds brings a record which has nothing that is not there anyway. -/
def Timely (f : Traffic sizing) : Event → Prop
  | .complete number fresh =>
    ∀ load ∈ f.loads[number]?, (f.cache.complete load.address load.record fresh).1.isOk →
      f.shown load = f.contents load.address
  | _ => True

/-- A completion that succeeds shows what the latest change left. -/
def ShowsLatest (f : Traffic sizing) : Event → Prop
  | .complete number fresh =>
    ∀ load ∈ f.loads[number]?, ∀ t c,
      f.cache.complete load.address load.record fresh = (.ok t, c) →
        (c.read t).map Payload.content = .ok (f.contents load.address)
  | _ => True

section Instances

instance (f : Traffic sizing) : (event : Event) → Decidable (f.Permits event)
  | .step step => inferInstanceAs (Decidable (f.toLedger.Permits step))
  | .request _ | .complete _ _ => isTrue trivial

instance (f : Traffic sizing) : (event : Event) → Decidable (f.Timely event)
  | .complete number _ =>
    inferInstanceAs (Decidable (∀ load ∈ f.loads[number]?, _ → _ = f.contents load.address))
  | .step _ | .request _ => isTrue trivial

instance decidableAlways {P : Traffic sizing → Event → Prop}
    [∀ f event, Decidable (P f event)] (f : Traffic sizing) :
    (events : List Event) → Decidable (f.Always P events)
  | [] => isTrue trivial
  | event :: events =>
    @instDecidableAnd _ _ inferInstance (decidableAlways (f.after event) events)

end Instances

/-- The cache and the store hold what the steps tell, and every load in flight has read what its
chunk held. -/
structure Faithful (f : Traffic sizing) : Prop where
  ledger : f.toLedger.Faithful
  genuine : ∀ load ∈ f.loads, load.Genuine

namespace Faithful

theorem opened {hash : Address → UInt64} {placement : Placement} :
    (opened sizing hash placement).Faithful :=
  ⟨.opened, List.forall_mem_nil _⟩

/-- What becomes of the completion of a load in flight. -/
theorem merged (h : f.Faithful) (hload : load ∈ f.loads) (fresh : Stamp) :
    ∃ v q, f.toBooks.Accounts v ∧ v.Mirrors f.store f.contents f.saved ∧
      q.content = load.content ∧ load.record = q.encode ∧
      f.cache.Merged v load.address q f.store f.contents f.saved
        (f.cache.complete load.address load.record fresh) := by
  obtain ⟨v, haccounts, hm⟩ := h.ledger
  obtain ⟨q, hrecord, hcontent, hregular, hfits⟩ := h.genuine load hload
  have hcomplete := haccounts.1.complete load.address load.record fresh
  refine ⟨v, q, haccounts, hm, hcontent, hrecord, ?_⟩
  rw [hrecord] at hcomplete ⊢
  exact hcomplete.merged haccounts.1 hm hregular (hcontent ▸ hfits) haccounts.2

theorem complete (h : f.Faithful) (hload : load ∈ f.loads) {c' : Cache sizing}
    (hcomplete : f.cache.complete load.address load.record fresh = (.ok t, c')) :
    t.address = load.address ∧
      ∃ p, c'.read t = .ok p ∧ p.Regular load.address ∧ p.content = f.shown load := by
  obtain ⟨v, q, haccounts, -, hcontent, -, hmerged⟩ := h.merged hload fresh
  rw [hcomplete] at hmerged
  cases hmerged with
  | found i p c' v' hi hp hshows hregular hcached habsent hsame =>
      obtain ⟨p', hp', hread⟩ := hshows.read_eq (t := ⟨i.val, load.address⟩) ⟨rfl, hi⟩
      obtain rfl : p = p' := Option.some.inj (hp.symm.trans hp')
      refine ⟨rfl, p, hread, hregular, ?_⟩
      unfold shown
      cases hfind : f.cache.find load.address with
      | none => exact (habsent (haccounts.1.find_eq_none_iff.1 hfind)).trans hcontent
      | some j =>
          rw [hcached j (haccounts.1.find_eq_some_iff.1 hfind), hcontent]
          rfl

theorem request (h : f.Faithful) (a : Address) : (f.after (.request a)).Faithful := by
  have ⟨v, haccounts, hm⟩ := h.ledger
  have hrequest := haccounts.1.request f.store a
  constructor
  · have hpin : ¬f.cache.TakesPin (.request f.store a) := id
    refine h.ledger.call hpin ?_
    rw [Cache.perform]
    generalize f.cache.request f.store a = o at hrequest ⊢
    cases hrequest with
    | cached i hi => exact haccounts.1.mirrored_retain hm
    | stored record ha hread => exact ⟨v, haccounts.1, hm⟩
    | unread e ha hread => exact ⟨v, haccounts.1, hm⟩
    | noBuckets hbuckets => exact ⟨v, haccounts.1, hm⟩
  · intro load hload
    rcases List.mem_append.1 hload with hload | hload
    · exact h.genuine load hload
    · unfold requested at hload
      generalize f.cache.request f.store a = o at hrequest hload
      cases hrequest with
      | stored record ha hread =>
          cases record with
          | none => exact absurd hload List.not_mem_nil
          | some record =>
              rw [List.mem_singleton.1 hload]
              have hrecord : f.store.record? a.toKey = some record := by
                rw [RecordStore.read, hm.running] at hread
                exact Except.ok.inj hread
              have hgenuine := (hm.stored a).of_record hrecord
              rwa [← hm.settled_of_absent ha] at hgenuine
      | _ => exact absurd hload List.not_mem_nil

theorem after (h : f.Faithful) (hpermits : f.Permits event) (htimely : f.Timely event) :
    (f.after event).Faithful := by
  cases event with
  | step step => exact ⟨h.ledger.after hpermits, h.genuine⟩
  | request a => exact h.request a
  | complete number fresh =>
      rw [Traffic.after]
      cases hnumber : f.loads[number]? with
      | none => exact h
      | some load =>
          have hload : load ∈ f.loads := List.mem_of_getElem? hnumber
          refine ⟨h.ledger.call id ?_, fun other hother =>
            h.genuine other (List.mem_of_mem_eraseIdx hother)⟩
          rw [Cache.perform, Cache.snd_grant]
          obtain ⟨v, q, haccounts, hm, -, -, hmerged⟩ := h.merged hload fresh
          have hshown := htimely load hnumber
          generalize hcomplete : f.cache.complete load.address load.record fresh = o
            at hmerged hshown
          cases hmerged with
          | failed e => exact ⟨v, haccounts.1, hm⟩
          | found i p c' v' hi hp hshows hregular hcached habsent hsame =>
              obtain ⟨-, p', hread, -, hcontent⟩ := h.complete hload hcomplete
              obtain ⟨j, hj, hp'⟩ := hshows.current_of_read hread
              obtain rfl : j = i := Fin.ext hj.1
              obtain rfl : p = p' := Option.some.inj (hp.symm.trans hp')
              exact ⟨v', hshows, hsame (hcontent.trans (hshown rfl))⟩

theorem run (h : f.Faithful) (hpermits : f.Always Permits events)
    (htimely : f.Always Timely events) : (f.run events).Faithful := by
  induction events generalizing f with
  | nil => exact h
  | cons event events ih =>
      exact ih (h.after hpermits.1 htimely.1) hpermits.2 htimely.2

/-- A completion shows the latest content exactly if it is timely. -/
theorem showsLatest_iff (h : f.Faithful) : f.ShowsLatest event ↔ f.Timely event := by
  cases event with
  | complete number fresh =>
      refine forall₂_congr fun load hnumber => ?_
      have hload : load ∈ f.loads := List.mem_of_getElem? hnumber
      rcases hcomplete : f.cache.complete load.address load.record fresh with ⟨e | t, c'⟩
      · exact iff_of_true (fun t c' heq => by cases heq) (fun hok => by cases hok)
      · obtain ⟨-, p, hread, -, hcontent⟩ := h.complete hload hcomplete
        constructor
        · intro hshows _
          have hlatest := hshows t c' rfl
          rw [hread] at hlatest
          exact hcontent.symm.trans (Except.ok.inj hlatest)
        · rintro htimely t c' ⟨⟩
          rw [hread, ← htimely rfl, ← hcontent]
          rfl
  | _ => exact Iff.rfl

/-- The first completion that is not timely is the first that does not show the latest content. -/
theorem always_showsLatest_iff (h : f.Faithful) (hpermits : f.Always Permits events) :
    f.Always ShowsLatest events ↔ f.Always Timely events := by
  induction events generalizing f with
  | nil => exact Iff.rfl
  | cons event events ih =>
      change f.ShowsLatest event ∧ _ ↔ f.Timely event ∧ _
      rw [h.showsLatest_iff]
      exact and_congr_right fun htimely => ih (h.after hpermits.1 htimely) hpermits.2

theorem contents_attributes (h : f.Faithful) (hkind : a.kind = .attributes) :
    ∃ values, f.contents a = .attributes values := by
  obtain ⟨v, -, hm⟩ := h.ledger
  by_cases hqueued : v.Queued a
  · obtain ⟨i, hi, -⟩ := hqueued
    obtain ⟨p, -, hreflects⟩ := hm.cached hi
    obtain ⟨m, rfl⟩ := hreflects.regular.attributes hkind
    exact ⟨m.values, hreflects.content_eq.symm⟩
  · rw [hm.settled hqueued]
    rcases hm.stored a with ⟨-, hempty⟩ | ⟨p, -, hcontent, hregular, -⟩
    · rw [hempty, Content.empty, hkind]
      exact ⟨.empty, rfl⟩
    · obtain ⟨m, rfl⟩ := hregular.attributes hkind
      exact ⟨m.values, hcontent.symm⟩

theorem shown_attributes {old new values : SortedMap Int64 Value}
    (hold : load.content = .attributes old) (hnew : f.contents load.address = .attributes new)
    (hvalues : Content.attributes values = f.shown load) :
    values = if (f.cache.find load.address).isSome then new.insertMany old.entries else old := by
  unfold shown at hvalues
  rw [hold, hnew] at hvalues
  split at hvalues
  · rw [if_pos ‹_›]
    exact Content.attributes.inj hvalues
  · rw [if_neg ‹_›]
    exact Content.attributes.inj hvalues

end Faithful

/-- A load is in time if its chunk holds still, or again, what it held at the request. -/
theorem shown_of_content_eq (h : load.content = f.contents load.address) :
    f.shown load = f.contents load.address := by
  rw [shown, h, Content.merge_self, ite_self]

/-- After any permitted steps, requests and completions, on a cache of any sizes, every completion
shows what the latest change left exactly if every one is timely. As long as they are, the next one
shows it if the chunk holds what it held at the request. Otherwise it shows, for attributes, each
value that the record has, whatever was written or removed since the request, and the values of the
cached map, if there is one, under the other keys. That is what the latest change left exactly if
the cached map still has the values of the record, or, if none is cached, the record holds it. -/
theorem loads_exact (sizing : Sizing) (hash : Address → UInt64) (placement : Placement)
    (events : List Event) (hevents : (opened sizing hash placement).Always Permits events) :
    ((opened sizing hash placement).Always ShowsLatest events ↔
      (opened sizing hash placement).Always Timely events) ∧
    ((opened sizing hash placement).Always Timely events →
      let f := (opened sizing hash placement).run events
      ∀ load ∈ f.loads, ∀ fresh t c',
      f.cache.complete load.address load.record fresh = (.ok t, c') →
      t.address = load.address ∧
      (load.content = f.contents load.address →
        (c'.read t).map Payload.content = .ok (f.contents load.address)) ∧
      (load.address.kind = .attributes → ∃ old new m, load.content = .attributes old ∧
        AttributeMap.Spells load.record old.entries ∧
        f.contents load.address = .attributes new ∧ c'.read t = .ok (.attributes m) ∧
        (∀ key, m.get? key = (old.get? key).or
          (if (f.cache.find load.address).isSome then new.get? key else none)) ∧
        (m.values = new ↔ if (f.cache.find load.address).isSome then
          ∀ key value, old.get? key = some value → new.get? key = some value
          else old = new))) := by
  refine ⟨Faithful.opened.always_showsLatest_iff hevents, fun htimely => ?_⟩
  intro f load hload fresh t c' hcomplete
  have h : f.Faithful := Faithful.opened.run hevents htimely
  obtain ⟨haddress, p, hread, hregular, hcontent⟩ := h.complete hload hcomplete
  refine ⟨haddress, fun hunchanged => ?_, fun hkind => ?_⟩
  · rw [hread, ← shown_of_content_eq hunchanged, ← hcontent]
    rfl
  obtain ⟨m, rfl⟩ := hregular.attributes hkind
  obtain ⟨q, hrecord, hq, hqregular, hfits⟩ := h.genuine load hload
  obtain ⟨n, rfl⟩ := hqregular.attributes hkind
  obtain ⟨new, hnew⟩ := h.contents_attributes hkind
  have hvalues := Faithful.shown_attributes hq.symm hnew hcontent
  have hget : ∀ key, m.get? key = m.values.get? key := fun key =>
    (SortedMap.get?_mapValues m.entries).symm
  refine ⟨n.values, new, m, hq.symm, ?_, hnew, hread, fun key => ?_, ?_⟩
  · rw [hrecord]
    rw [← hq] at hfits
    exact AttributeMap.decodeRecords_eq_ok_iff.1 (AttributeMap.decodeRecords_encode hfits)
  · rw [hget, hvalues]
    split
    · exact SortedMap.get?_insertMany_entries new n.values key
    · exact (Option.or_none).symm
  · rw [hvalues]
    split
    · exact SortedMap.insertMany_entries_eq_self_iff
    · exact Iff.rfl

def subject : Address := .attributes 0 0 1

/-- Two attributes that were saved are loaded twice: the load that was requested second is completed
first, and then one attribute is changed and the other one removed. -/
def overtaken : List Event :=
  [ .step (.holdOrCreate subject 0),
    .step (.mutate ⟨0, subject⟩ (.set 1 .long (.long 10)) (.unknown 1)),
    .step (.mutate ⟨0, subject⟩ (.set 2 .bool (.bool true)) (.unknown 2)),
    .step .save,
    .step (.releaseOf subject),
    .step (.holdOrCreate Books.first 0),
    .step (.releaseOf Books.first),
    .request subject,
    .request subject,
    .complete 1 3,
    .step (.mutate ⟨0, subject⟩ (.set 1 .long (.long 20)) (.unknown 4)),
    .step (.mutate ⟨0, subject⟩ (.remove 2) (.unknown 5)) ]

/-- The load that is left brings both values back. -/
theorem loads_exact_overtaken :
    (opened ⟨1, 1⟩ (fun _ => 0) .sameThread).Always ShowsLatest overtaken ∧
      let f := (opened ⟨1, 1⟩ (fun _ => 0) .sameThread).run overtaken
      ∃ load ∈ f.loads, ∃ t c' m, f.cache.complete load.address load.record 6 = (.ok t, c') ∧
        c'.read t = .ok (.attributes m) ∧ m.get? 1 = some (.long 10) ∧
          m.get? 2 = some (.bool true) := by
  have hpermits : (opened ⟨1, 1⟩ (fun _ => 0) .sameThread).Always Permits overtaken := by
    decide +kernel
  have htimely : (opened ⟨1, 1⟩ (fun _ => 0) .sameThread).Always Timely overtaken := by
    decide +kernel
  obtain ⟨hiff, hlaw⟩ := loads_exact ⟨1, 1⟩ (fun _ => 0) .sameThread overtaken hpermits
  refine ⟨hiff.2 htimely, ?_⟩
  intro f
  have hlength : f.loads.length = 1 := by decide +kernel
  have hloads : ∀ load ∈ f.loads, load.address = subject ∧ load.content =
      .attributes ((SortedMap.empty.insert 1 (.long 10)).insert 2 (.bool true)) ∧
      (f.cache.complete load.address load.record 6).1 = .ok ⟨0, subject⟩ := by
    decide +kernel
  obtain ⟨load, hload⟩ :=
    List.exists_mem_of_length_pos (Nat.lt_of_lt_of_eq Nat.one_pos hlength.symm)
  obtain ⟨haddress, hcontent, hok⟩ := hloads load hload
  rcases hcomplete : f.cache.complete load.address load.record 6 with ⟨answer, c'⟩
  rw [hcomplete] at hok
  cases hok
  obtain ⟨-, -, hattributes⟩ := hlaw htimely load hload 6 _ c' hcomplete
  obtain ⟨old, new, m, hold, -, -, hread, hget, -⟩ := hattributes (haddress ▸ rfl)
  obtain rfl := Content.attributes.inj (hcontent.symm.trans hold)
  refine ⟨load, hload, _, c', m, hcomplete, hread, ?_, ?_⟩
  · rw [hget]
    rfl
  · rw [hget]
    rfl

/-- The change and the removal are the latest that happened, and they are undone. -/
theorem late_load_undoes_changes :
    let f := (opened ⟨1, 1⟩ (fun _ => 0) .sameThread).run overtaken
    let f' := f.after (.complete 0 6)
    (opened ⟨1, 1⟩ (fun _ => 0) .sameThread).Always Permits overtaken ∧
      (f.loads.map fun load => (f.cache.complete load.address load.record 6).1) =
        [.ok ⟨0, subject⟩] ∧
      f.contents subject = .attributes (SortedMap.empty.insert 1 (.long 20)) ∧
      (f.cache.read ⟨0, subject⟩).map Payload.content = .ok (f.contents subject) ∧
      (f'.cache.read ⟨0, subject⟩).map Payload.content =
        .ok (.attributes ((SortedMap.empty.insert 1 (.long 10)).insert 2 (.bool true))) ∧
      ¬f.ShowsLatest (.complete 0 6) := by
  intro f f'
  have hpermits : (opened ⟨1, 1⟩ (fun _ => 0) .sameThread).Always Permits overtaken := by
    decide +kernel
  have hfaithful : f.Faithful := Faithful.opened.run hpermits (by decide +kernel)
  have hlate : ¬f.Timely (.complete 0 6) := by decide +kernel
  refine ⟨hpermits, by decide +kernel, by decide +kernel, by decide +kernel, by decide +kernel, ?_⟩
  exact fun hshows => hlate (hfaithful.showsLatest_iff.1 hshows)

end Traffic

end ChunkCache
