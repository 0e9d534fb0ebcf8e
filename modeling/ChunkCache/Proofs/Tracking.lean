import ChunkCache.Proofs.RoundTrip

namespace ChunkCache

namespace Tracker

variable {t t' : Tracker}

theorem Follows.listening (h : t.Follows t') : t'.listening = t.listening := by
  rcases h with rfl | rfl
  · unfold touch
    split <;> rfl
  · rfl

theorem Follows.dirty (h : t.Follows t') (hdirty : t.dirty = true) : t'.dirty = true := by
  rcases h with rfl | rfl
  · exact t.dirty_touch
  · exact hdirty

theorem Follows.notices (h : t.Follows t') (hlistening : t.listening = true) :
    t'.notices = t.notices + if !t.dirty && t'.dirty then 1 else 0 := by
  rcases h with rfl | rfl
  · rw [notices_touch, hlistening, dirty_touch, Bool.true_and, Bool.and_true]
  · simp

end Tracker

namespace Operation

/-- The operations that may change a saved form and leave the payload clean. -/
inductive Quiet : Operation → Payload → Prop
  | insertSilently (key : Int64) (t : Timeline) : Quiet (.insertSilently key) (.timeline t)
  | loadAttributes {m : AttributeMap} (own : Ownership) (buffer : Bytes) (h : m.isEmpty = true) :
    Quiet (.load own buffer) (.attributes m)
  | loadDivergences {d : Divergences} (own : Ownership) (buffer : Bytes) (h : d.isInitial = true) :
    Quiet (.load own buffer) (.divergences d)
  | loadTimeline {t : Timeline} (own : Ownership) (buffer : Bytes) (h : t.isEmpty = true) :
    Quiet (.load own buffer) (.timeline t)
  | raiseSeed {g : IdGenerator} {stored : Int64} (own : Ownership) {buffer : Bytes}
    (hspells : IdGenerator.Spells buffer (some stored)) (h : g.seed < stored) :
    Quiet (.load own buffer) (.generator g)

/-- The operations that change nothing: what they would bring is there, what they would remove is
not, or they are refused. -/
inductive Idle : Operation → Payload → Prop
  | insert {t : Timeline} {key : Int64} (own : Ownership) (h : key ∈ t.tree.keys) :
    Idle (.mutate (.insert key) own) (.timeline t)
  | insertSilently {t : Timeline} {key : Int64} (h : key ∈ t.tree.keys) :
    Idle (.insertSilently key) (.timeline t)
  | remove {m : AttributeMap} {key : Int64} (own : Ownership) (h : m.get? key = none) :
    Idle (.mutate (.remove key) own) (.attributes m)
  | put {d : Divergences} {world time : Int64} (own : Ownership) (h : d.get? world = some time) :
    Idle (.mutate (.put world time) own) (.divergences d)
  | setCode (d : Divergences) (own : Ownership) :
    Idle (.mutate (.setCode d.code) own) (.divergences d)
  | refused {m : Mutation} {own : Ownership} {p p' : Payload} {e : Error}
    (h : m.act own p = .ok (.error e, p')) : Idle (.mutate m own) p
  | rejected {own : Ownership} {buffer : Bytes} {p : Payload} {e : Error}
    (h : p.load own buffer = .error e) : Idle (.load own buffer) p
  | loadKeys {t : Timeline} {keys : List Int64} (own : Ownership) {buffer : Bytes}
    (hspells : Timeline.Spells buffer keys) (h : ∀ key ∈ keys, key ∈ t.tree.keys) :
    Idle (.load own buffer) (.timeline t)
  | loadPairs {d : Divergences} {code : Int64} {pairs : List (Int64 × Int64)} (own : Ownership)
    {buffer : Bytes} (hspells : Divergences.Spells buffer code pairs)
    (hcode : code = absentLong ∨ code = d.code)
    (h : ∀ e ∈ pairs, d.get? e.1 = some e.2) : Idle (.load own buffer) (.divergences d)

end Operation

namespace Timeline

variable {t : Timeline} {key : Int64} {keys : List Int64}

theorem placeAll_cons (t : Timeline) (key : Int64) (keys : List Int64) :
    t.placeAll (key :: keys) = (((t.place key).1.placeAll keys).1,
      (t.place key).2 || ((t.place key).1.placeAll keys).2) := by
  -- a fold that begins with one key found tells that one was
  have hfound : ∀ (t : Timeline) (found : Bool),
      keys.foldl (fun r key => ((r.1.place key).1, r.2 || (r.1.place key).2)) (t, found) =
        ((t.placeAll keys).1, found || (t.placeAll keys).2) := by
    induction keys with
    | nil => exact fun t found => Prod.ext rfl (Bool.or_false found).symm
    | cons key keys ih =>
        intro t found
        have hfalse := ih (t.place key).1 (false || (t.place key).2)
        change t.placeAll (key :: keys) = _ at hfalse
        rw [List.foldl_cons, ih, hfalse, Bool.false_or, Bool.or_assoc]
  exact hfound (t.place key).1 (false || (t.place key).2)

theorem tree_place_of_not_new (h : t.tree.Sound) (hnew : (t.place key).2 = false) :
    (t.place key).1.tree = t.tree := by
  change (t.tree.insert key).2 = false at hnew
  change (t.tree.insert key).1 = t.tree
  by_cases hkey : key ∈ t.tree.keys
  · rw [h.insert_of_mem hkey]
  · obtain ⟨tree, hinsert, -, -⟩ := h.insert_of_not_mem hkey
    rw [hinsert] at hnew
    cases hnew

theorem place_of_mem (h : t.tree.Sound) (hkey : key ∈ t.tree.keys) : (t.place key).2 = false := by
  change (t.tree.insert key).2 = false
  rw [h.insert_of_mem hkey]

theorem tree_placeAll_of_not_new (h : t.tree.Sound) (hnew : (t.placeAll keys).2 = false) :
    (t.placeAll keys).1.tree = t.tree := by
  induction keys generalizing t with
  | nil => rfl
  | cons key keys ih =>
      rw [placeAll_cons] at hnew ⊢
      obtain ⟨hfirst, hrest⟩ := Bool.or_eq_false_iff.1 hnew
      have htree := tree_place_of_not_new h hfirst
      exact (ih (htree ▸ h) hrest).trans htree

theorem placeAll_of_subset (h : t.tree.Sound) (hkeys : keys ⊆ t.tree.keys) :
    (t.placeAll keys).2 = false := by
  induction keys generalizing t with
  | nil => rfl
  | cons key keys ih =>
      obtain ⟨hkey, hkeys⟩ := List.cons_subset.1 hkeys
      have hfirst := place_of_mem h hkey
      have htree := tree_place_of_not_new h hfirst
      rw [placeAll_cons, hfirst]
      exact ih (htree ▸ h) (htree ▸ hkeys)

/-- Keys that are there already change neither the tree nor the tracker. -/
theorem merge_of_subset (h : t.tree.Sound) (hkeys : keys ⊆ t.tree.keys) :
    (t.merge keys).tree = t.tree ∧ (t.merge keys).tracker = t.tracker := by
  have hroom : (t.makeRoom (t.size + keys.length)).tree.Sound := h
  have hnew := placeAll_of_subset hroom hkeys
  unfold merge
  dsimp only
  rw [hnew]
  exact ⟨tree_placeAll_of_not_new hroom hnew, tracker_placeAll _ _⟩

theorem merge_changes (h : t.tree.Sound) (keys : List Int64) :
    (t.merge keys).tree = t.tree ∨ t.isEmpty = true ∨
      (t.merge keys).tracker = t.tracker.touch := by
  have hroom : (t.makeRoom (t.size + keys.length)).tree.Sound := h
  unfold merge
  dsimp only
  split
  · rename_i hnew
    exact .inl (tree_placeAll_of_not_new hroom (by simpa using hnew))
  · split
    · exact .inr (.inl ‹_›)
    · exact .inr (.inr (congrArg Tracker.touch (tracker_placeAll _ _)))

end Timeline

theorem AttributeMap.merge_changes (m : AttributeMap) (own : Ownership)
    (records : List (Int64 × Value)) : m.merge own records = m ∨ m.isEmpty = true ∨
      (m.merge own records).tracker = m.tracker.touch := by
  unfold merge
  split
  · exact .inl rfl
  · dsimp only
    split
    · exact .inr (.inl ‹_›)
    · exact .inr (.inr rfl)

namespace Divergences

variable {d : Divergences} {entries : SortedMap Int64 Int64} {pairs : List (Int64 × Int64)}
variable {code : Int64}

theorem putAll_of_not_news (h : (putAll entries pairs).1 = false) :
    (putAll entries pairs).2 = entries := by
  induction pairs generalizing entries with
  | nil => rfl
  | cons pair pairs ih =>
      obtain ⟨hnews, hrest⟩ := Bool.or_eq_false_iff.1 h
      have hget : entries.get? pair.1 = some pair.2 := by simpa [isNews] using hnews
      have hsame : entries.insert pair.1 pair.2 = entries := SortedMap.insert_of_get? hget
      exact (ih hrest).trans hsame

theorem putAll_of_present (h : ∀ e ∈ pairs, entries.get? e.1 = some e.2) :
    putAll entries pairs = (false, entries) := by
  induction pairs with
  | nil => rfl
  | cons pair pairs ih =>
      obtain ⟨hget, hrest⟩ := List.forall_mem_cons.1 h
      have hsame : entries.insert pair.1 pair.2 = entries := SortedMap.insert_of_get? hget
      have hnews : isNews entries pair = false := by simpa [isNews] using hget
      rw [putAll, hsame, ih hrest, hnews]
      rfl

/-- Pairs that are there already change nothing, with the code or without one. -/
theorem merge_of_present (hcode : code = absentLong ∨ code = d.code)
    (h : ∀ e ∈ pairs, d.get? e.1 = some e.2) : d.merge code pairs = d := by
  have hadopts : (code ≠ absentLong && code ≠ d.code) = false := by
    rcases hcode with rfl | rfl <;> simp
  unfold merge
  rw [hadopts, putAll_of_present h]
  rfl

theorem merge_changes (d : Divergences) (code : Int64) (pairs : List (Int64 × Int64)) :
    d.merge code pairs = d ∨ d.isInitial = true ∨
      (d.merge code pairs).tracker = d.tracker.touch := by
  have hkept : (putAll d.entries pairs).1 = false → (putAll d.entries pairs).2 = d.entries :=
    putAll_of_not_news
  unfold merge
  generalize (code ≠ absentLong && code ≠ d.code) = adopts
  rcases hput : putAll d.entries pairs with ⟨news, entries⟩
  rw [hput] at hkept
  dsimp only
  cases hinitial : d.isInitial with
  | true => exact .inr (.inl rfl)
  | false =>
      cases hchanged : adopts || news with
      | true => exact .inr (.inr rfl)
      | false =>
          obtain ⟨rfl, rfl⟩ := Bool.or_eq_false_iff.1 hchanged
          obtain rfl : entries = d.entries := hkept rfl
          exact .inl rfl

end Divergences

theorem IdGenerator.merge_changes (g : IdGenerator) (stored : Int64) :
    g.merge stored = g ∨ g.seed < stored ∨
      stored < g.seed ∧ g.merge stored = { g with tracker := g.tracker.touch } := by
  unfold merge
  split
  · exact .inr (.inl ‹_›)
  · split
    · exact .inr (.inr ⟨‹_›, rfl⟩)
    · exact .inl rfl

namespace Payload

variable {a : Address} {p p' : Payload} {own : Ownership} {buffer : Bytes}

/-- What a payload loads changes nothing, or the payload is touched, or the load is a quiet one. -/
theorem load_changes (hp : p.Regular a) (h : p.load own buffer = .ok p') :
    p'.content = p.content ∨ (Operation.load own buffer).Quiet p ∨
      p'.tracker = p.tracker.touch := by
  cases p with
  | attributes m =>
      obtain ⟨m', hm, rfl⟩ := Field.exists_of_map_eq_ok h
      obtain ⟨records, -, rfl⟩ := Field.exists_of_map_eq_ok hm
      rcases m.merge_changes own records with hsame | hempty | htouch
      · exact .inl (by rw [hsame])
      · exact .inr (.inl (.loadAttributes own buffer hempty))
      · exact .inr (.inr htouch)
  | divergences d =>
      obtain ⟨d', hd, rfl⟩ := Field.exists_of_map_eq_ok h
      rcases Divergences.load_cases hd with ⟨-, rfl⟩ | ⟨code, pairs, -, rfl⟩
      · exact .inl rfl
      · rcases d.merge_changes code pairs with hsame | hinitial | htouch
        · exact .inl (congrArg (content ∘ divergences) hsame)
        · exact .inr (.inl (.loadDivergences own buffer hinitial))
        · exact .inr (.inr htouch)
  | timeline t =>
      obtain ⟨t', ht, rfl⟩ := Field.exists_of_map_eq_ok h
      rcases Timeline.load_cases ht with ⟨-, rfl⟩ | ⟨keys, -, rfl⟩
      · exact .inl rfl
      · rcases Timeline.merge_changes hp.2.sound keys with hsame | hempty | htouch
        · exact .inl (congrArg (fun tree : RowTree => Content.timeline tree.keys) hsame)
        · exact .inr (.inl (.loadTimeline own buffer hempty))
        · exact .inr (.inr htouch)
  | generator g =>
      obtain ⟨g', hg, rfl⟩ := Field.exists_of_map_eq_ok h
      rcases IdGenerator.load_cases hg with ⟨-, rfl⟩ | ⟨stored, hread, rfl⟩
      · exact .inl rfl
      · rcases g.merge_changes stored with hsame | hless | ⟨-, htouch⟩
        · exact .inl (by rw [hsame])
        · exact .inr (.inl (.raiseSeed own (IdGenerator.decode_eq_ok_iff_spells.1 hread) hless))
        · exact .inr (.inr (by rw [htouch]; rfl))

end Payload

namespace Mutation

variable {m : Mutation} {p p' : Payload} {own : Ownership} {e : Error}

theorem settle_of_error {α : Type} {old : α} {r : Except Error α} {e : Error}
    (h : (settle old r).1 = .error e) : (settle old r).2 = old := by
  cases r with
  | ok new => cases h
  | error e => rfl

/-- A change that is refused leaves the payload. -/
theorem act_refused (h : m.act own p = .ok (.error e, p')) : p' = p := by
  cases m with
  | set key ty value =>
      cases p with
      | attributes m =>
          obtain ⟨herror, rfl⟩ := Prod.mk.inj (Except.ok.inj h)
          exact congrArg Payload.attributes (settle_of_error herror)
      | _ => cases h
  | edit key ty f =>
      cases p with
      | attributes m =>
          obtain ⟨herror, rfl⟩ := Prod.mk.inj (Except.ok.inj h)
          exact congrArg Payload.attributes (settle_of_error herror)
      | _ => cases h
  | take =>
      cases p with
      | generator g =>
          obtain ⟨herror, rfl⟩ := Prod.mk.inj (Except.ok.inj h)
          exact congrArg Payload.generator (settle_of_error herror)
      | _ => cases h
  | _ =>
      cases p with
      | _ => cases h

end Mutation

namespace Operation

variable {a : Address} {op : Operation} {p : Payload}

theorem listening_on (op : Operation) (p : Payload) :
    (op.on p).tracker.listening = p.tracker.listening := by
  rcases op.follows_on p with ⟨-, hclear⟩ | hfollows
  · rw [hclear]
    rfl
  · exact hfollows.listening

theorem notices_on (op : Operation) (h : p.tracker.listening = true) :
    (op.on p).tracker.notices =
      p.tracker.notices + if !p.isDirty && (op.on p).isDirty then 1 else 0 := by
  rcases op.follows_on p with ⟨-, hclear⟩ | hfollows
  · rw [Payload.isDirty, Payload.isDirty, hclear, Tracker.clear, Bool.and_false]
    rfl
  · exact hfollows.notices h

theorem eq_save_of_clean (h : p.isDirty = true) (hclean : (op.on p).isDirty = false) :
    op = .save := by
  rcases op.follows_on p with ⟨hsave, -⟩ | hfollows
  · exact hsave
  · exact absurd ((hfollows.dirty h).symm.trans hclean) nofun

/-- What changes the saved form leaves the payload dirty, unless the operation is a quiet one. -/
theorem dirty_of_changed (hp : p.Regular a) (h : (op.on p).encode ≠ p.encode)
    (hquiet : ¬op.Quiet p) : (op.on p).isDirty = true := by
  have htouched (htouch : (op.on p).tracker = p.tracker.touch) : (op.on p).isDirty = true := by
    rw [Payload.isDirty, htouch]
    exact p.tracker.dirty_touch
  have hsame (hcontent : (op.on p).content = p.content) : (op.on p).isDirty = true :=
    absurd (Payload.encode_eq_of_content_eq hcontent) h
  cases op with
  | save => exact hsame (p.content_mapTracker _)
  | mutate m own =>
      cases hact : m.act own p with
      | error e =>
          refine hsame ?_
          rw [on, hact]
      | ok result =>
          obtain ⟨answer, p'⟩ := result
          have hon : (mutate m own).on p = p' := by rw [on, hact]
          obtain ⟨hcontent, -, htouch | ⟨-, hkept⟩⟩ := Mutation.act_becomes hp hact
          · exact htouched (hon ▸ htouch)
          · exact hsame (hon ▸ hcontent.trans hkept)
  | load own buffer =>
      cases hload : p.load own buffer with
      | error e =>
          refine hsame ?_
          rw [on, hload]
      | ok p' =>
          have hon : (load own buffer).on p = p' := by rw [on, hload]
          rcases Payload.load_changes hp hload with hkept | hexempt | htouch
          · exact hsame (hon ▸ hkept)
          · exact absurd hexempt hquiet
          · exact htouched (hon ▸ htouch)
  | touch =>
      cases p with
      | attributes m => exact htouched rfl
      | _ => exact hsame rfl
  | insertSilently key =>
      cases p with
      | timeline t => exact absurd (.insertSilently key t) hquiet
      | _ => exact hsame rfl
  | reserve rows =>
      cases p with
      | timeline t =>
          refine hsame ?_
          rw [on]
          split
          · rename_i hreserve
            rw [Timeline.eq_makeRoom_of_reserve hreserve]
            rfl
          · rfl
      | _ => exact hsame rfl

/-- An idle operation changes neither the content nor what is tracked. -/
theorem Idle.unchanged (hp : p.Regular a) (h : op.Idle p) :
    (op.on p).content = p.content ∧ (op.on p).tracker = p.tracker := by
  cases h with
  | @insert t key own hkey =>
      change Content.timeline (t.insert key).1.tree.keys = .timeline t.tree.keys ∧
        (t.insert key).1.tracker = t.tracker
      rw [Timeline.insert_of_tree (hp.2.sound.insert_of_mem hkey)]
      exact ⟨rfl, rfl⟩
  | @insertSilently t key hkey =>
      change Content.timeline (t.insertSilently key).1.tree.keys = .timeline t.tree.keys ∧
        (t.insertSilently key).1.tracker = t.tracker
      rw [t.tree_insertSilently, hp.2.sound.insert_of_mem hkey]
      exact ⟨rfl, t.tracker_insertSilently key⟩
  | @remove m key own hkey =>
      have habsent : ¬m.contains key = true := by
        rw [AttributeMap.contains, SortedMap.contains]
        simpa [AttributeMap.get?, AttributeMap.attribute?] using hkey
      change (Payload.attributes (m.remove own key)).content = _ ∧ (m.remove own key).tracker = _
      rw [AttributeMap.remove, if_neg habsent]
      exact ⟨rfl, rfl⟩
  | @put d world time own hget =>
      change (Payload.divergences (d.put world time)).content = _ ∧ (d.put world time).tracker = _
      rw [Divergences.put, if_pos hget]
      exact ⟨rfl, rfl⟩
  | setCode d own =>
      change (Payload.divergences (d.setCode d.code)).content = _ ∧ (d.setCode d.code).tracker = _
      rw [Divergences.setCode, if_pos rfl]
      exact ⟨rfl, rfl⟩
  | refused hact =>
      rw [on, hact, Mutation.act_refused hact]
      exact ⟨rfl, rfl⟩
  | rejected hload =>
      rw [on, hload]
      exact ⟨rfl, rfl⟩
  | @loadKeys t keys own buffer hspells hkeys =>
      rcases Timeline.load_spelled hspells t with hload | ⟨-, hload⟩
      · obtain ⟨htree, htracker⟩ := Timeline.merge_of_subset hp.2.sound hkeys
        rw [on, Payload.load, hload]
        exact ⟨congrArg (fun tree : RowTree => Content.timeline tree.keys) htree, htracker⟩
      · rw [on, Payload.load, hload]
        exact ⟨rfl, rfl⟩
  | @loadPairs d code pairs own buffer hspells hcode hpairs =>
      have hload : d.load buffer = .ok d := by
        rcases Divergences.load_spelled hspells d with hmerge | ⟨-, hload⟩
        · rw [hmerge, Divergences.merge_of_present hcode hpairs]
        · exact hload
      rw [on, Payload.load, hload]
      exact ⟨rfl, rfl⟩

/-- A generator that is ahead of the seed that it loads has to be saved. -/
theorem dirty_of_behind {g : IdGenerator} {own : Ownership} {buffer : Bytes} {stored : Int64}
    (hspells : IdGenerator.Spells buffer (some stored)) (h : stored < g.seed) :
    ((load own buffer).on (.generator g)).isDirty = true := by
  have hmerge : g.merge stored = { g with tracker := g.tracker.touch } := by
    have hnot : ¬g.seed < stored := Int64.not_lt.2 (Int64.le_of_lt h)
    exact (if_neg hnot).trans (if_pos h)
  have hread := IdGenerator.decode_eq_ok_iff_spells.2 hspells
  rw [on, Payload.load, IdGenerator.load_of_decode hread, hmerge]
  exact g.tracker.dirty_touch

end Operation

namespace Payload

/-- How often a payload becomes dirty while operations are done to it. -/
def wakings (p : Payload) : List Operation → Nat
  | [] => 0
  | op :: ops => (if !p.isDirty && (op.on p).isDirty then 1 else 0) + (op.on p).wakings ops

variable {a : Address} {p : Payload}

theorem listening_operate (p : Payload) (ops : List Operation) :
    (p.operate ops).tracker.listening = p.tracker.listening := by
  induction ops generalizing p with
  | nil => rfl
  | cons op ops ih => exact (ih (op.on p)).trans (op.listening_on p)

theorem notices_operate (h : p.tracker.listening = true) (ops : List Operation) :
    (p.operate ops).tracker.notices = p.tracker.notices + p.wakings ops := by
  induction ops generalizing p with
  | nil => rfl
  | cons op ops ih =>
      have hlistening : (op.on p).tracker.listening = true := (op.listening_on p).trans h
      calc ((op.on p).operate ops).tracker.notices
          = (op.on p).tracker.notices + (op.on p).wakings ops := ih hlistening
        _ = p.tracker.notices + p.wakings (op :: ops) := by
          rw [op.notices_on h, wakings, Nat.add_assoc]

/-- Along every run of operations on a payload that is listened to, the listener is told as often as
the payload becomes dirty. At every step of the run it is told once if the step makes the payload
dirty and otherwise not; only a save makes the payload clean; a step that changes the saved form and
is not a quiet one leaves the payload dirty; an idle step changes neither the content nor what is
tracked; and a generator that loads a seed below its own is dirty. -/
theorem Arises.tracking_exact (h : Arises a p) (hlistening : p.tracker.listening = true)
    (ops : List Operation) :
    (p.operate ops).tracker.notices = p.tracker.notices + p.wakings ops ∧
    ∀ before op after, ops = before ++ op :: after →
      let q := p.operate before
      let q' := op.on q
      q'.tracker.notices = q.tracker.notices + (if !q.isDirty && q'.isDirty then 1 else 0) ∧
      (q.isDirty = true → q'.isDirty = false → op = .save) ∧
      (q'.encode ≠ q.encode → ¬op.Quiet q → q'.isDirty = true) ∧
      (op.Idle q → q'.content = q.content ∧ q'.tracker = q.tracker) ∧
      ∀ own buffer g stored, op = .load own buffer → q = .generator g →
        IdGenerator.Spells buffer (some stored) → stored < g.seed → q'.isDirty = true := by
  refine ⟨notices_operate hlistening ops, fun before op after _ => ?_⟩
  intro q q'
  have hq : q.Regular a := (h.operateAll before).regular
  have hq' : q.tracker.listening = true := (p.listening_operate before).trans hlistening
  refine ⟨op.notices_on hq', Operation.eq_save_of_clean, Operation.dirty_of_changed hq,
    Operation.Idle.unchanged hq, ?_⟩
  rintro own buffer g stored rfl hg hspells hless
  change ((Operation.load own buffer).on q).isDirty = true
  rw [hg]
  exact Operation.dirty_of_behind hspells hless

/-- An insertion that is told, a duplicate, a save, a silent insertion and a buffer that is refused,
and an insertion that is told again. -/
def interrupted : List Operation :=
  [ .mutate (.insert 3) (.unknown 0), .mutate (.insert 3) (.unknown 1), .save, .insertSilently 5,
    .load (.unknown 2) [Separator.part.byte], .mutate (.insert 7) (.unknown 3) ]

/-- The listener is told twice, and the duplicate changes nothing. -/
theorem Arises.tracking_exact_interrupted :
    let p := (timeline .empty).listen true
    let q := p.operate [.mutate (.insert 3) (.unknown 0)]
    Arises (.timeline 0 1) p ∧ p.tracker.listening = true ∧
      (p.operate interrupted).tracker.notices = 2 ∧
      ((Operation.mutate (.insert 3) (.unknown 1)).on q).content = q.content := by
  intro p q
  have hempty : ofAddress (.timeline 0 1) 0 = .ok (timeline .empty) := rfl
  have hp : Arises (.timeline 0 1) p := .listen (.empty hempty) true
  obtain ⟨hnotices, hsteps⟩ := hp.tracking_exact rfl interrupted
  have hwakings : p.wakings interrupted = 2 := by decide +kernel
  obtain ⟨-, -, -, hidle, -⟩ := hsteps [.mutate (.insert 3) (.unknown 0)] _ _ rfl
  refine ⟨hp, rfl, by rw [hnotices, hwakings]; rfl, (hidle (.insert _ ?_)).1⟩
  decide +kernel

end Payload

end ChunkCache
