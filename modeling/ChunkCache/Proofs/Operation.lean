import ChunkCache.Proofs.Mutation

namespace ChunkCache

inductive Operation where
  | mutate (m : Mutation) (own : Ownership)
  | load (own : Ownership) (buffer : Bytes)
  | save
  /-- Declare attributes changed. -/
  | touch
  | insertSilently (key : Int64)
  | reserve (rows : Nat)

/-- What an operation makes of a payload. One that is refused, or is none of its kind, leaves it. -/
def Operation.on : Operation → Payload → Payload
  | mutate m own, p =>
    match m.act own p with
    | .ok (_, p') => p'
    | .error _ => p
  | load own buffer, p =>
    match p.load own buffer with
    | .ok p' => p'
    | .error _ => p
  | save, p => p.save.2
  | touch, .attributes m => .attributes m.touch
  | insertSilently key, .timeline t => .timeline (t.insertSilently key).1
  | reserve rows, .timeline t =>
    match t.reserve rows with
    | .ok t' => .timeline t'
    | .error _ => .timeline t
  | _, p => p

namespace Payload

/-- Do operations one after the other. -/
def operate (p : Payload) (ops : List Operation) : Payload := ops.foldl (fun p op => op.on p) p

/-- A payload that began empty and was changed by operations only, whatever its listener was. -/
inductive Built : Payload → Prop
  | empty {a : Address} {fresh : Stamp} {p : Payload} (h : ofAddress a fresh = .ok p) : Built p
  | operate {p : Payload} (h : Built p) (op : Operation) : Built (op.on p)
  | track {p : Payload} (h : Built p) (f : Tracker → Tracker) : Built (p.mapTracker f)

theorem Built.operateAll {p : Payload} (h : p.Built) (ops : List Operation) :
    (p.operate ops).Built := by
  induction ops generalizing p with
  | nil => exact h
  | cons op ops ih => exact ih (h.operate op)

end Payload

/-- A tracker was touched, or it was left as it is. -/
def Tracker.Follows (t t' : Tracker) : Prop := t' = t.touch ∨ t' = t

namespace Timeline

variable {t : Timeline}

theorem tracker_insertSilently (t : Timeline) (key : Int64) :
    (t.insertSilently key).1.tracker = t.tracker := by
  unfold insertSilently
  dsimp only
  split <;> rfl

theorem tree_insertSilently (t : Timeline) (key : Int64) :
    (t.insertSilently key).1.tree = (t.tree.insert key).1 := by
  unfold insertSilently
  dsimp only
  split <;> rfl

theorem follows_insert (t : Timeline) (key : Int64) :
    t.tracker.Follows (t.insert key).1.tracker := by
  have htracker := t.tracker_insertSilently key
  unfold insert
  dsimp only
  split
  · exact .inl (congrArg Tracker.touch htracker)
  · exact .inr htracker

theorem tracker_truncate (t : Timeline) (bound : Int64) :
    (t.truncate bound).tracker = t.tracker.touch :=
  congrArg Tracker.touch (tracker_placeAll _ _)

/-- A merge touches the timeline at most, and it inserts the keys one after the other. -/
theorem merge_spec (t : Timeline) (keys : List Int64) : t.tracker.Follows (t.merge keys).tracker ∧
    (t.merge keys).tree = keys.foldl (fun tree key => (tree.insert key).1) t.tree := by
  have htracker := tracker_placeAll (t.makeRoom (t.size + keys.length)) keys
  have htree := tree_placeAll (t.makeRoom (t.size + keys.length)) keys false
  unfold merge
  dsimp only
  split
  · exact ⟨.inr htracker, htree⟩
  split
  · exact ⟨.inr htracker, htree⟩
  · exact ⟨.inl (congrArg Tracker.touch htracker), htree⟩

theorem tree_merge_grown (h : t.tree.Grown) (keys : List Int64) : (t.merge keys).tree.Grown := by
  rw [(t.merge_spec keys).2]
  exact h.insertAll keys

end Timeline

namespace AttributeMap

variable {own : Ownership} {key : Int64} {ty : AttributeType}

theorem follows_set (m : AttributeMap) (value : Value) :
    m.tracker.Follows (Mutation.settle m (m.set own key ty value)).2.tracker := by
  unfold set
  cases value.coerce key ty with
  | error e => exact .inr rfl
  | ok value => exact .inl rfl

theorem follows_remove (m : AttributeMap) : m.tracker.Follows (m.remove own key).tracker := by
  unfold remove
  split
  · exact .inl rfl
  · exact .inr rfl

theorem follows_edit (m : AttributeMap) (f : Collection → Collection) : m.tracker.Follows
    (Mutation.settle m ((m.edit own key ty fun c => ((), f c)).map (·.2))).2.tracker := by
  unfold edit
  cases Collection.empty? ty with
  | none => exact .inr rfl
  | some empty => exact .inl rfl

theorem follows_merge (m : AttributeMap) (own : Ownership) (records : List (Int64 × Value)) :
    m.tracker.Follows (m.merge own records).tracker := by
  unfold merge
  split
  · exact .inr rfl
  dsimp only
  split
  · exact .inr rfl
  · exact .inl rfl

end AttributeMap

namespace Divergences

theorem follows_put (d : Divergences) (world time : Int64) :
    d.tracker.Follows (d.put world time).tracker := by
  unfold put
  split
  · exact .inr rfl
  · exact .inl rfl

theorem follows_setCode (d : Divergences) (code : Int64) :
    d.tracker.Follows (d.setCode code).tracker := by
  unfold setCode
  split
  · exact .inr rfl
  · exact .inl rfl

theorem follows_merge (d : Divergences) (code : Int64) (pairs : List (Int64 × Int64)) :
    d.tracker.Follows (d.merge code pairs).tracker := by
  unfold merge
  dsimp only
  split
  · exact .inl rfl
  · exact .inr rfl

end Divergences

namespace IdGenerator

variable {g : IdGenerator} {stored : Int64}

theorem decode_range {buffer : Bytes} (h : decode buffer = .ok stored) :
    0 ≤ stored ∧ stored ≤ seedLimit :=
  (decode_eq_ok_iff.1 h).1

theorem follows_take (g : IdGenerator) :
    g.tracker.Follows (Mutation.settle g (g.take.map (·.2))).2.tracker := by
  by_cases hlimit : seedLimit ≤ g.seed
  · rw [take, if_pos hlimit]
    exact .inr rfl
  · rw [take, if_neg hlimit]
    exact .inl rfl

theorem follows_merge (g : IdGenerator) (stored : Int64) :
    g.tracker.Follows (g.merge stored).tracker := by
  unfold merge
  split
  · exact .inr rfl
  split
  · exact .inl rfl
  · exact .inr rfl

end IdGenerator

namespace Payload

variable {a : Address} {p p' : Payload} {own : Ownership} {buffer : Bytes}

theorem follows_load (h : p.load own buffer = .ok p') : p.tracker.Follows p'.tracker := by
  cases p with
  | attributes m =>
      obtain ⟨m', hm, rfl⟩ := Field.exists_of_map_eq_ok h
      obtain ⟨records, -, rfl⟩ := Field.exists_of_map_eq_ok hm
      exact m.follows_merge own records
  | divergences d =>
      obtain ⟨d', hd, rfl⟩ := Field.exists_of_map_eq_ok h
      rcases Divergences.load_cases hd with ⟨-, rfl⟩ | ⟨code, pairs, -, rfl⟩
      · exact .inr rfl
      · exact d.follows_merge code pairs
  | timeline t =>
      obtain ⟨t', ht, rfl⟩ := Field.exists_of_map_eq_ok h
      rcases Timeline.load_cases ht with ⟨-, rfl⟩ | ⟨keys, -, rfl⟩
      · exact .inr rfl
      · exact (t.merge_spec keys).1
  | generator g =>
      obtain ⟨g', hg, rfl⟩ := Field.exists_of_map_eq_ok h
      rcases IdGenerator.load_cases hg with ⟨-, rfl⟩ | ⟨stored, -, rfl⟩
      · exact .inr rfl
      · exact g.follows_merge stored

theorem kind_load (h : p.load own buffer = .ok p') : p'.kind = p.kind := by
  cases p with
  | _ x =>
      obtain ⟨y, -, rfl⟩ := Field.exists_of_map_eq_ok h
      rfl

theorem Regular.load (hp : p.Regular a) (h : p.load own buffer = .ok p') : p'.Regular a := by
  cases p with
  | attributes m =>
      obtain ⟨m', -, rfl⟩ := Field.exists_of_map_eq_ok h
      exact hp
  | divergences d =>
      obtain ⟨d', -, rfl⟩ := Field.exists_of_map_eq_ok h
      exact hp
  | timeline t =>
      obtain ⟨t', ht, rfl⟩ := Field.exists_of_map_eq_ok h
      rcases Timeline.load_cases ht with ⟨-, rfl⟩ | ⟨keys, -, rfl⟩
      · exact hp
      · exact ⟨hp.1, Timeline.tree_merge_grown hp.2 keys⟩
  | generator g =>
      obtain ⟨g', hg, rfl⟩ := Field.exists_of_map_eq_ok h
      rcases IdGenerator.load_cases hg with ⟨-, rfl⟩ | ⟨stored, hdecode, rfl⟩
      · exact hp
      · obtain ⟨hkind, hprefix, hrange, hseed⟩ := hp
        have hstored := IdGenerator.decode_range hdecode
        unfold IdGenerator.merge
        split
        · exact ⟨hkind, hprefix, hrange, hstored⟩
        split
        · exact ⟨hkind, hprefix, hrange, hseed⟩
        · exact ⟨hkind, hprefix, hrange, hseed⟩

end Payload

namespace Mutation

variable {m : Mutation} {p p' : Payload} {own : Ownership} {answer : Except Error Unit}

/-- A change touches its payload at most, whatever the payload is. -/
theorem act_follows (h : m.act own p = .ok (answer, p')) : p.tracker.Follows p'.tracker := by
  cases m with
  | insert key =>
      cases p with
      | timeline t =>
          cases h
          exact t.follows_insert key
      | _ => cases h
  | truncate bound =>
      cases p with
      | timeline t =>
          cases h
          exact .inl (t.tracker_truncate bound)
      | _ => cases h
  | set key ty value =>
      cases p with
      | attributes m =>
          cases h
          exact m.follows_set value
      | _ => cases h
  | remove key =>
      cases p with
      | attributes m =>
          cases h
          exact m.follows_remove
      | _ => cases h
  | edit key ty f =>
      cases p with
      | attributes m =>
          cases h
          exact m.follows_edit f
      | _ => cases h
  | put world time =>
      cases p with
      | divergences d =>
          cases h
          exact d.follows_put world time
      | _ => cases h
  | setCode code =>
      cases p with
      | divergences d =>
          cases h
          exact d.follows_setCode code
      | _ => cases h
  | take =>
      cases p with
      | generator g =>
          cases h
          exact g.follows_take
      | _ => cases h

end Mutation

namespace Operation

variable {a : Address} {p : Payload}

/-- What is done but a save touches a tracker at most. -/
theorem follows_of_ne_save {op : Operation} (h : op ≠ .save) (p : Payload) :
    p.tracker.Follows (op.on p).tracker := by
  cases op with
  | save => exact absurd rfl h
  | mutate m own =>
      rw [on]
      split
      · exact Mutation.act_follows ‹_›
      · exact .inr rfl
  | load own buffer =>
      rw [on]
      split
      · exact Payload.follows_load ‹_›
      · exact .inr rfl
  | touch =>
      cases p with
      | attributes m => exact .inl rfl
      | _ => exact .inr rfl
  | insertSilently key =>
      cases p with
      | timeline t => exact .inr (t.tracker_insertSilently key)
      | _ => exact .inr rfl
  | reserve rows =>
      cases p with
      | timeline t =>
          rw [on]
          split
          · rename_i hreserve
            rw [Timeline.eq_makeRoom_of_reserve hreserve]
            exact .inr rfl
          · exact .inr rfl
      | _ => exact .inr rfl

/-- Only a save clears a tracker. -/
theorem follows_on (op : Operation) (p : Payload) :
    op = .save ∧ (op.on p).tracker = p.tracker.clear ∨ p.tracker.Follows (op.on p).tracker := by
  by_cases h : op = .save
  · rw [h]
    exact .inl ⟨rfl, Payload.tracker_mapTracker _ p⟩
  · exact .inr (follows_of_ne_save h p)

theorem regular_on (h : p.Regular a) (op : Operation) : (op.on p).Regular a := by
  cases op with
  | save => exact (Payload.regular_mapTracker _).2 h
  | mutate m own =>
      rw [on]
      split
      · exact (Mutation.act_becomes h ‹_›).regular
      · exact h
  | load own buffer =>
      rw [on]
      split
      · exact h.load ‹_›
      · exact h
  | touch =>
      cases p with
      | attributes m => exact h
      | _ => exact h
  | insertSilently key =>
      cases p with
      | timeline t =>
          refine ⟨h.1, ?_⟩
          rw [t.tree_insertSilently key]
          exact h.2.insert key
      | _ => exact h
  | reserve rows =>
      cases p with
      | timeline t =>
          rw [on]
          split
          · rename_i hreserve
            rw [Timeline.eq_makeRoom_of_reserve hreserve]
            exact h
          · exact h
      | _ => exact h

end Operation

namespace Payload

variable {a : Address} {p p' : Payload} {own : Ownership} {buffer : Bytes}

theorem Built.load (h : p.Built) (hload : p.load own buffer = .ok p') : p'.Built := by
  have hop := h.operate (.load own buffer)
  rw [Operation.on, hload] at hop
  exact hop

theorem Regular.operate (h : p.Regular a) (ops : List Operation) : (p.operate ops).Regular a := by
  induction ops generalizing p with
  | nil => exact h
  | cons op ops ih => exact ih (Operation.regular_on h op)

/-- Every payload that was built is regular under some address. -/
theorem Built.regular (h : p.Built) : ∃ a, p.Regular a := by
  induction h with
  | empty h => exact ⟨_, (ofAddress_eq h).2.1⟩
  | operate h op ih =>
      obtain ⟨a, ha⟩ := ih
      exact ⟨a, Operation.regular_on ha op⟩
  | track h f ih =>
      obtain ⟨a, ha⟩ := ih
      exact ⟨a, (regular_mapTracker f).2 ha⟩

/-- Operations keep a payload in its kind. -/
theorem Built.kind_operate (h : p.Built) (ops : List Operation) :
    (p.operate ops).kind = p.kind := by
  obtain ⟨a, ha⟩ := h.regular
  rw [(ha.operate ops).kind_eq, ha.kind_eq]

/-- The payload as the chunk of `a`: the prefix of a generator, which no saved form has, is that of
its address. -/
def under (a : Address) : Payload → Payload
  | .generator g => .generator { g with idPrefix := a.id }
  | p => p

theorem encode_under (a : Address) (p : Payload) : (p.under a).encode = p.encode := by
  cases p <;> rfl

theorem fits_under : (p.under a).content.Fits ↔ p.content.Fits := by
  cases p <;> rfl

/-- The payload was built, and it is of the kind of an address that can have a chunk. -/
structure Suits (a : Address) (p : Payload) : Prop where
  admissible : a.Admissible
  kind_eq : p.kind = a.kind
  built : p.Built

namespace Suits

theorem mapTracker (h : p.Suits a) (f : Tracker → Tracker) : (p.mapTracker f).Suits a where
  admissible := h.admissible
  kind_eq := by rw [kind_mapTracker, h.kind_eq]
  built := h.built.track f

theorem forgetNotices (h : p.Suits a) : p.forgetNotices.Suits a := h.mapTracker _

theorem ofAddress {fresh : Stamp} (h : Payload.ofAddress a fresh = .ok p) : p.Suits a where
  admissible := isOk_ofAddress.1 (by rw [h]; rfl)
  kind_eq := kind_ofAddress h
  built := .empty h

theorem load {own : Ownership} {buffer : Bytes} (h : p.Suits a)
    (hload : p.load own buffer = .ok p') : p'.Suits a where
  admissible := h.admissible
  kind_eq := by rw [kind_load hload, h.kind_eq]
  built := h.built.load hload

/-- As the chunk of its address the payload is regular. -/
theorem regular_under (h : p.Suits a) : (p.under a).Regular a := by
  obtain ⟨b, hb⟩ := h.built.regular
  have hkind := h.kind_eq.symm
  cases p with
  | timeline t => exact ⟨hkind, hb.2⟩
  | generator g => exact ⟨hkind, rfl, h.admissible hkind, hb.2.2.2⟩
  | _ => exact hkind

end Suits

end Payload

end ChunkCache
