import ChunkCache.Proofs.Content

namespace ChunkCache

/-- A change of a payload. Those of a collection are any function of it. -/
inductive Mutation where
  | insert (key : Int64)
  | truncate (bound : Int64)
  | set (key : Int64) (ty : AttributeType) (value : Value)
  | remove (key : Int64)
  | edit (key : Int64) (ty : AttributeType) (f : Collection → Collection)
  | put (world time : Int64)
  | setCode (code : Int64)
  | take

namespace Content

def addKey (keys : List Int64) (key : Int64) : List Int64 :=
  if key ∈ keys then keys else keys ++ [key]

/-- The values with a value of the declared type; another one is refused. -/
def setValue (values : SortedMap Int64 Value) (key : Int64) (ty : AttributeType) (value : Value) :
    SortedMap Int64 Value :=
  match value.coerce key ty with
  | .ok value => values.insert key value
  | .error _ => values

/-- The collection under a key, empty if there is none of the type of `empty`. -/
def collection (values : SortedMap Int64 Value) (key : Int64) (empty : Collection) : Collection :=
  match values.get? key with
  | some (.collection c) => if c.type = empty.type then c else empty
  | _ => empty

/-- The values with an edited collection, if the type is one of collections. -/
def editValue (values : SortedMap Int64 Value) (key : Int64) (ty : AttributeType)
    (f : Collection → Collection) : SortedMap Int64 Value :=
  match Collection.empty? ty with
  | some empty => values.insert key (.collection (f (collection values key empty)))
  | none => values

def nextSeed (seed : Int64) : Int64 := if IdGenerator.seedLimit ≤ seed then seed else seed + 1

end Content

namespace Mutation

/-- The kind of the payloads that a change is for. -/
def kind : Mutation → Kind
  | insert _ | truncate _ => .timeline
  | set _ _ _ | remove _ | edit _ _ _ => .attributes
  | put _ _ | setCode _ => .divergences
  | take => .generator

/-- What a change makes of a content; one that is refused, or is none of its kind, leaves it. -/
def apply : Mutation → Content → Content
  | insert key, .timeline keys => .timeline (Content.addKey keys key)
  | truncate bound, .timeline keys => .timeline (keys.filter fun key => decide (key < bound))
  | set key ty value, .attributes values => .attributes (Content.setValue values key ty value)
  | remove key, .attributes values => .attributes (values.erase key)
  | edit key ty f, .attributes values => .attributes (Content.editValue values key ty f)
  | put world time, .divergences entries code => .divergences (entries.insert world time) code
  | setCode code, .divergences entries _ => .divergences entries code
  | take, .generator idPrefix seed => .generator idPrefix (Content.nextSeed seed)
  | _, content => content

/-- The answer to a change, and what is left: after a refusal the old. -/
def settle {α : Type} (old : α) : Except Error α → Except Error Unit × α
  | .ok new => (.ok (), new)
  | .error e => (.error e, old)

/-- Make a change to a payload of its kind. -/
def act (own : Ownership) : Mutation → Payload → Except Error (Except Error Unit × Payload)
  | insert key => Payload.onTimeline fun t => (.ok (), (t.insert key).1)
  | truncate bound => Payload.onTimeline fun t => (.ok (), t.truncate bound)
  | set key ty value => Payload.onAttributes fun m => settle m (m.set own key ty value)
  | remove key => Payload.onAttributes fun m => (.ok (), m.remove own key)
  | edit key ty f => Payload.onAttributes fun m =>
    settle m ((m.edit own key ty fun c => ((), f c)).map (·.2))
  | put world time => Payload.onDivergences fun d => (.ok (), d.put world time)
  | setCode code => Payload.onDivergences fun d => (.ok (), d.setCode code)
  | take => Payload.onGenerator fun g => settle g (g.take.map (·.2))

theorem act_isOk {m : Mutation} {p : Payload} (own : Ownership) (h : p.kind = m.kind) :
    (m.act own p).isOk := by
  cases m <;> cases p <;> first | rfl | cases h

end Mutation

variable {a : Address} {own : Ownership} {key : Int64}

/-- The payload `p` came to hold `content`, and it was touched unless it held the same before. -/
structure Payload.Becomes (a : Address) (content : Content) (p p' : Payload) : Prop where
  content_eq : p'.content = content
  regular : p'.Regular a
  tracker : p'.tracker = p.tracker.touch ∨ p'.tracker = p.tracker ∧ content = p.content

open Payload (Becomes)

namespace Timeline

variable {t : Timeline}

theorem insert_of_tree {tree : RowTree} {new : Bool} (h : t.tree.insert key = (tree, new)) :
    (t.insert key).1 =
      if new then ({ t with tree, capacity := grown t.capacity tree.size } : Timeline).stamped.touch
      else { t with tree, capacity := grown t.capacity tree.size } := by
  obtain ⟨tree₀, capacity, revision, tracker⟩ := t
  change tree₀.insert key = (tree, new) at h
  unfold Timeline.insert insertSilently place
  dsimp only
  rw [h]
  cases new <;> rfl

theorem insert_becomes (h : (Payload.timeline t).Regular a) (key : Int64) :
    Becomes a (.timeline (Content.addKey t.tree.keys key)) (.timeline t)
      (.timeline (t.insert key).1) := by
  obtain ⟨hkind, hgrown⟩ := h
  have hgrown' := hgrown.insert key
  unfold Content.addKey
  split
  · rename_i hkey
    rw [insert_of_tree (hgrown.sound.insert_of_mem hkey)]
    exact ⟨rfl, ⟨hkind, hgrown⟩, .inr ⟨rfl, rfl⟩⟩
  · rename_i hkey
    obtain ⟨tree, hinsert, -, hkeys⟩ := hgrown.sound.insert_of_not_mem hkey
    rw [hinsert] at hgrown'
    rw [insert_of_tree hinsert]
    exact ⟨congrArg Content.timeline hkeys, ⟨hkind, hgrown'⟩, .inl rfl⟩

theorem truncate_becomes (h : (Payload.timeline t).Regular a) (bound : Int64) :
    Becomes a (.timeline (t.tree.keys.filter fun key => decide (key < bound))) (.timeline t)
      (.timeline (t.truncate bound)) := by
  obtain ⟨hkind, hgrown⟩ := h
  obtain ⟨left, hleft⟩ : ∃ left, left = t.tree.keys.filter fun key => decide (key < bound) :=
    ⟨_, rfl⟩
  have htree : (t.truncate bound).tree = RowTree.ofKeys left := by
    rw [hleft]
    exact tree_placeAll _ _ false
  have hnodup : left.Nodup := hleft ▸ hgrown.sound.nodup.filter _
  rw [← hleft]
  refine ⟨?_, ⟨hkind, ?_⟩, .inl ?_⟩
  · change Content.timeline (t.truncate bound).tree.keys = .timeline left
    rw [htree, RowTree.keys_ofKeys hnodup]
  · rw [htree]
    exact RowTree.grown_ofKeys left
  · exact congrArg Tracker.touch (tracker_placeAll _ _)

end Timeline

namespace AttributeMap

variable {m : AttributeMap} {ty : AttributeType}

theorem values_insert (m : AttributeMap) (key : Int64) (value : Value) (stamp : Stamp) :
    (m.entries.insert key ⟨value, stamp⟩).mapValues Attribute.value = m.values.insert key value :=
  SortedMap.mapValues_insert _

theorem set_becomes (h : a.kind = .attributes) (value : Value) :
    Becomes a (.attributes (Content.setValue m.values key ty value)) (.attributes m)
      (.attributes (Mutation.settle m (m.set own key ty value)).2) := by
  unfold Content.setValue set
  cases value.coerce key ty with
  | error e => exact ⟨rfl, h, .inr ⟨rfl, rfl⟩⟩
  | ok value => exact ⟨congrArg Content.attributes (values_insert ..), h, .inl rfl⟩

theorem remove_becomes (h : a.kind = .attributes) :
    Becomes a (.attributes (m.values.erase key)) (.attributes m)
      (.attributes (m.remove own key)) := by
  have hget : m.values.get? key = (m.entries.get? key).map Attribute.value :=
    SortedMap.get?_mapValues _
  unfold remove contains SortedMap.contains
  split
  · exact ⟨congrArg Content.attributes (SortedMap.mapValues_erase _), h, .inl rfl⟩
  · rename_i hnot
    have hnone : m.values.get? key = none := by
      rw [hget, Option.not_isSome_iff_eq_none.1 hnot]
      rfl
    rw [SortedMap.erase_of_get?_eq_none hnone]
    exact ⟨rfl, h, .inr ⟨rfl, rfl⟩⟩

theorem editable_fst (m : AttributeMap) (own : Ownership) (key : Int64) (empty : Collection) :
    (m.editable own key empty).1 = Content.collection m.values key empty := by
  have hget : m.values.get? key = (m.entries.get? key).map Attribute.value :=
    SortedMap.get?_mapValues _
  unfold editable Content.collection attribute?
  rw [hget]
  rcases m.entries.get? key with _ | ⟨value, stamp⟩
  · rfl
  · cases value with
    | collection c =>
        dsimp only [Option.map_some]
        split <;> rfl
    | _ => rfl

theorem edit_becomes (h : a.kind = .attributes) (f : Collection → Collection) :
    Becomes a (.attributes (Content.editValue m.values key ty f)) (.attributes m)
      (.attributes (Mutation.settle m ((m.edit own key ty fun c => ((), f c)).map (·.2))).2) := by
  unfold Content.editValue edit
  cases Collection.empty? ty with
  | none => exact ⟨rfl, h, .inr ⟨rfl, rfl⟩⟩
  | some empty =>
      refine ⟨congrArg Content.attributes ?_, h, .inl rfl⟩
      dsimp only
      rw [← editable_fst m own]
      exact values_insert ..

end AttributeMap

namespace Divergences

variable {d : Divergences}

theorem put_becomes (h : a.kind = .divergences) (world time : Int64) :
    Becomes a (.divergences (d.entries.insert world time) d.code) (.divergences d)
      (.divergences (d.put world time)) := by
  unfold put
  split
  · rename_i hsame
    rw [SortedMap.insert_of_get? hsame]
    exact ⟨rfl, h, .inr ⟨rfl, rfl⟩⟩
  · exact ⟨rfl, h, .inl rfl⟩

theorem setCode_becomes (h : a.kind = .divergences) (code : Int64) :
    Becomes a (.divergences d.entries code) (.divergences d) (.divergences (d.setCode code)) := by
  unfold setCode
  split
  · rename_i hsame
    rw [← hsame]
    exact ⟨rfl, h, .inr ⟨rfl, rfl⟩⟩
  · exact ⟨rfl, h, .inl rfl⟩

end Divergences

theorem IdGenerator.take_becomes {g : IdGenerator} (h : (Payload.generator g).Regular a) :
    Becomes a (.generator g.idPrefix (Content.nextSeed g.seed)) (.generator g)
      (.generator (Mutation.settle g (g.take.map (·.2))).2) := by
  unfold Content.nextSeed take
  split
  · exact ⟨rfl, h, .inr ⟨rfl, rfl⟩⟩
  · rename_i hlt
    refine ⟨rfl, ⟨h.1, h.2.1, h.2.2.1, ?_⟩, .inl rfl⟩
    have hnonneg : 0 ≤ g.seed := h.2.2.2.1
    change 0 ≤ g.seed + 1 ∧ g.seed + 1 ≤ seedLimit
    have hlimit : seedLimit.toInt = 137438953471 := by decide
    simp only [Int64.le_iff_toInt_le, hlimit, Int64.toInt_zero] at hlt hnonneg ⊢
    have hnext : (g.seed + 1).toInt = g.seed.toInt + 1 := by
      rw [Int64.toInt_add, Int64.toInt_one]
      exact Int.bmod_eq_of_le (by omega) (by omega)
    omega

/-- A change that is made gives the payload the content that the change makes of the old one. -/
theorem Mutation.act_becomes {m : Mutation} {p p' : Payload} {answer : Except Error Unit}
    (hp : p.Regular a) (h : m.act own p = .ok (answer, p')) :
    Becomes a (m.apply p.content) p p' := by
  cases m with
  | insert key =>
      cases p with
      | timeline t =>
          cases h
          exact Timeline.insert_becomes hp key
      | _ => cases h
  | truncate bound =>
      cases p with
      | timeline t =>
          cases h
          exact Timeline.truncate_becomes hp bound
      | _ => cases h
  | set key ty value =>
      cases p with
      | attributes m =>
          cases h
          exact AttributeMap.set_becomes hp value
      | _ => cases h
  | remove key =>
      cases p with
      | attributes m =>
          cases h
          exact AttributeMap.remove_becomes hp
      | _ => cases h
  | edit key ty f =>
      cases p with
      | attributes m =>
          cases h
          exact AttributeMap.edit_becomes hp f
      | _ => cases h
  | put world time =>
      cases p with
      | divergences d =>
          cases h
          exact Divergences.put_becomes hp world time
      | _ => cases h
  | setCode code =>
      cases p with
      | divergences d =>
          cases h
          exact Divergences.setCode_becomes hp code
      | _ => cases h
  | take =>
      cases p with
      | generator g =>
          cases h
          exact IdGenerator.take_becomes hp
      | _ => cases h

end ChunkCache
