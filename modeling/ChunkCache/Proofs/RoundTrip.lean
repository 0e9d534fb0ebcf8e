import ChunkCache.Proofs.Operation
import ChunkCache.Proofs.Timeline

namespace ChunkCache

namespace Bytes

variable {sep : UInt8} {piece : Bytes} {pieces : List Bytes}

theorem length_joinWith_cons (sep : UInt8) (piece next : Bytes) (rest : List Bytes) :
    (joinWith sep (piece :: next :: rest)).length =
      piece.length + ((joinWith sep (next :: rest)).length + 1) :=
  List.length_append

theorem length_le_joinWith (sep : UInt8) (pieces : List Bytes) :
    pieces.length ≤ (joinWith sep pieces).length + 1 := by
  induction pieces with
  | nil => exact Nat.zero_le _
  | cons piece rest ih =>
      cases rest with
      | nil => simp
      | cons next rest =>
          rw [List.length_cons, length_joinWith_cons]
          omega

theorem length_le_of_mem (h : piece ∈ pieces) : piece.length ≤ (joinWith sep pieces).length := by
  induction pieces with
  | nil => exact absurd h List.not_mem_nil
  | cons first rest ih =>
      cases rest with
      | nil => exact Nat.le_of_eq (congrArg List.length (List.mem_singleton.1 h))
      | cons next rest =>
          rw [length_joinWith_cons]
          rcases List.mem_cons.1 h with rfl | h
          · omega
          · have hrest := ih h
            omega

end Bytes

namespace Field

variable {α : Type}

theorem length_le_encodeItems (count : Nat) (fields : List Bytes) :
    fields.length ≤ (encodeItems count fields).length :=
  Nat.le_of_succ_le_succ (Bytes.length_le_joinWith _ (encodeCount count :: fields))

theorem length_le_encodeArray (write : α → Bytes) (vs : List α) :
    vs.length ≤ (encodeItems vs.length (vs.map write)).length := by
  have hlength := length_le_encodeItems vs.length (vs.map write)
  rwa [List.length_map] at hlength

theorem length_le_encodePairs (write : α → Bytes) (count : Nat) (pairs : List (α × Int64)) :
    pairs.length ≤
      (encodeItems count (pairs.flatMap fun e => [write e.1, encodeInt64 e.2])).length := by
  refine le_trans ?_ (length_le_encodeItems _ _)
  rw [length_flatMap]
  exact Nat.le_mul_of_pos_right _ (by decide)

end Field

theorem Collection.itemCount_le_encode (c : Collection) : c.itemCount ≤ c.encode.length := by
  cases c with
  | longMap m => exact Field.length_le_encodePairs Field.encodeInt64 m.size m.entries
  | stringMap m => exact Field.length_le_encodePairs Field.encodeString m.size m.entries
  | longMultimap m =>
      change m.size ≤ _
      rw [← m.length_history]
      exact Field.length_le_encodePairs Field.encodeInt64 m.size m.history

theorem Value.itemCount_le_encode (v : Value) : v.itemCount ≤ v.encode.length := by
  cases v with
  | bools vs => exact Field.length_le_encodeArray Field.encodeBool vs
  | strings vs => exact Field.length_le_encodeArray Field.encodeString vs
  | longs vs => exact Field.length_le_encodeArray Field.encodeInt64 vs
  | ints vs => exact Field.length_le_encodeArray Field.encodeInt32 vs
  | doubles vs => exact Field.length_le_encodeArray Field.encodeDouble vs
  | collection c => exact c.itemCount_le_encode
  | _ => exact Nat.zero_le _

theorem AttributeMap.length_encode_le {m : AttributeMap} {e : Int64 × Value} (h : e ∈ m.toList) :
    e.2.encode.length ≤ m.encode.length := by
  have hrecord : encodeRecord e.1 e.2 ∈ m.toList.map fun e => encodeRecord e.1 e.2 :=
    List.mem_map.2 ⟨e, h, rfl⟩
  calc e.2.encode.length ≤ (encodeRecord e.1 e.2).length := Bytes.length_le_of_mem (by simp)
    _ ≤ m.encode.length := Bytes.length_le_of_mem hrecord

theorem Timeline.length_keys_le_encode (t : Timeline) : t.tree.keys.length ≤ t.encode.length := by
  have hbody := Bytes.length_le_joinWith Separator.entry.byte (t.tree.keys.map Field.encodeInt64)
  rw [List.length_map] at hbody
  rw [encode, List.length_append, List.length_cons]
  omega

namespace Payload

variable {a : Address} {p q : Payload}

/-- The counts of a saved form that fits into memory can tell its numbers of items. -/
theorem fits_of_length_encode (h : p.encode.length ≤ Field.maxCount) : p.content.Fits := by
  cases p with
  | attributes m =>
      intro e he
      exact le_trans e.2.itemCount_le_encode (le_trans (AttributeMap.length_encode_le he) h)
  | timeline t =>
      change t.tree.keys.length ≤ Field.maxCount
      exact le_trans t.length_keys_le_encode h
  | _ => trivial

/-- A saved form tells the content and nothing else. -/
theorem encode_eq_of_content_eq (h : p.content = q.content) : p.encode = q.encode := by
  cases p with
  | attributes m =>
      cases q with
      | attributes n =>
          have hvalues : m.values = n.values := Content.attributes.inj h
          have hlist : m.toList = n.toList := congrArg SortedMap.entries hvalues
          change m.encode = n.encode
          rw [AttributeMap.encode, AttributeMap.encode, hlist]
      | _ => cases h
  | divergences d =>
      cases q with
      | divergences e =>
          obtain ⟨hentries, hcode⟩ := Content.divergences.inj h
          change d.encode = e.encode
          rw [Divergences.encode_eq, Divergences.encode_eq, Divergences.toList, hentries, hcode]
          rfl
      | _ => cases h
  | timeline t =>
      cases q with
      | timeline s =>
          have hkeys : t.tree.keys = s.tree.keys := Content.timeline.inj h
          change t.encode = s.encode
          rw [Timeline.encode, Timeline.encode, ← t.length_keys, ← s.length_keys, hkeys]
      | _ => cases h
  | generator g =>
      cases q with
      | generator k =>
          have hseed : g.seed = k.seed := (Content.generator.inj h).2
          change g.encode = k.encode
          rw [IdGenerator.encode, IdGenerator.encode, hseed]
      | _ => cases h

/-- What the public operations make of the payload of an address: a payload begins empty or as a
fork of attributes of another entity, and is then operated on and listened to. -/
inductive Arises : Address → Payload → Prop
  | empty {a : Address} {fresh : Stamp} {p : Payload} (h : ofAddress a fresh = .ok p) : Arises a p
  | fork {a b : Address} {m : AttributeMap} (h : Arises a (.attributes m))
      (hb : b.kind = .attributes) : Arises b (.attributes m.fork)
  | operate {a : Address} {p : Payload} (h : Arises a p) (op : Operation) : Arises a (op.on p)
  | listen {a : Address} {p : Payload} (h : Arises a p) (listening : Bool) :
    Arises a (p.listen listening)

namespace Arises

theorem regular (h : Arises a p) : p.Regular a := by
  induction h with
  | empty h => exact (ofAddress_eq h).2.1
  | fork h hb => exact hb
  | operate h op ih => exact Operation.regular_on ih op
  | listen h listening ih => exact (regular_mapTracker _).2 ih

theorem operateAll (h : Arises a p) (ops : List Operation) : Arises a (p.operate ops) := by
  induction ops generalizing p with
  | nil => exact h
  | cons op ops ih => exact ih (h.operate op)

/-- The saved form of a payload, which like every byte string is no longer than memory allows, is
accepted by the empty payload of the same address. The content comes back, the payload stays clean,
its listener is told nothing, and it saves to the same bytes. The save itself clears the dirty flag
and does nothing else. -/
theorem load_save (h : Arises a p) (hlength : p.save.1.length ≤ Field.maxCount) (fresh : Stamp)
    (own : Ownership) (listening : Bool) :
    (∃ q q', ofAddress a fresh = .ok q ∧ (q.listen listening).load own p.save.1 = .ok q' ∧
      q'.content = p.content ∧ q'.tracker = { listening } ∧ q'.save.1 = p.save.1) ∧
      p.save.2.tracker = { p.tracker with dirty := false } ∧
      p.save.2.mapTracker (fun _ => p.tracker) = p := by
  refine ⟨?_, p.tracker_mapTracker _, ?_⟩
  · obtain ⟨q, hq⟩ := h.regular.ofAddress fresh
    obtain ⟨hempty, hregular, htracker⟩ := ofAddress_eq hq
    have hcontent : (q.listen listening).content = .empty a := by
      rw [Payload.listen, content_mapTracker, hempty]
    obtain ⟨q', hload, hsame, -, hkept⟩ := load_encode hcontent ((regular_mapTracker _).2 hregular)
      h.regular (fits_of_length_encode hlength) own
    have hclean : q'.tracker = { listening } := by
      rw [hkept, Payload.listen, tracker_mapTracker, htracker]
      rfl
    exact ⟨q, q', hq, hload, hsame, hclean, encode_eq_of_content_eq hsame⟩
  · cases p with
    | _ x => rfl

end Arises

/-- Attributes of many types: a double that is no number, an empty text in an array, an array
without items and a multimap. -/
def assorted : List Operation :=
  [ .mutate (.set 1 .double (.double ⟨0x7ff8000000000001⟩)) (.unknown 1),
    .mutate (.set (-2) .strings (.strings ["", "a"])) (.unknown 2),
    .mutate (.set 3 .bools (.bools [])) (.unknown 3),
    .mutate (.edit 4 .longMultimap fun
      | .longMultimap m => .longMultimap (((m.put 7 1).put 7 2).put (-5) 3)
      | c => c) (.unknown 4) ]

/-- They come back to a listening map of the same entity, which stays clean. -/
theorem Arises.load_save_assorted :
    let p := (attributes (.empty 0)).operate assorted
    p.save.1.length ≤ Field.maxCount ∧ ∃ q',
      ((attributes (.empty 9)).listen true).load (.unknown 9) p.save.1 = .ok q' ∧
        q'.content = p.content ∧ q'.tracker = { listening := true } ∧ q'.save.1 = p.save.1 := by
  intro p
  have hp : Arises (.attributes 0 0 1) p := .operateAll (.empty rfl) assorted
  have hlength : p.save.1.length ≤ Field.maxCount := by decide +kernel
  obtain ⟨⟨q, q', hq, hload, hreloaded⟩, -⟩ := hp.load_save hlength 9 (.unknown 9) true
  cases hq
  exact ⟨hlength, q', hload, hreloaded⟩

end Payload

end ChunkCache
