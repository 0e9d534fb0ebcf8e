import ChunkCache.Proofs.Grammar

namespace ChunkCache

open ChunkCache.Field

/-- What is merged is what was read, unless the buffer is empty and nothing is. -/
theorem Field.cases_of_merge_eq_ok {α β : Type} {buffer : Bytes} {read : Except Error α} {f : α → β}
    {old new : β} (h : (if buffer.isEmpty then .ok old else read.map f) = .ok new) :
    buffer = [] ∧ new = old ∨ ∃ x, read = .ok x ∧ new = f x := by
  split at h
  · cases h
    exact .inl ⟨List.isEmpty_iff.1 ‹_›, rfl⟩
  · obtain ⟨x, hread, rfl⟩ := exists_of_map_eq_ok h
    exact .inr ⟨x, hread, rfl⟩

namespace AttributeMap

variable {m : AttributeMap} {key : Int64} {value : Value}

theorem spelled_encodeRecord (h : value.Fits) : Spelled (key, value) (encodeRecord key value) :=
  .record key (Value.decode_eq_ok_iff.1 (value.decode_encode h)).2

theorem not_mem_encodeRecord {s : Separator} (hentry : s ≠ .entry) (hitem : s ≠ .item) :
    s.byte ∉ encodeRecord key value :=
  Separator.not_mem_joinWith hentry (parts_free key _ (value.not_mem_encode hitem))

theorem decodeRecords_encode (h : ∀ e ∈ m.toList, e.2.Fits) :
    decodeRecords m.encode = .ok m.toList := by
  refine decodeRecords_eq_ok_iff.2 ⟨_, ?_, rfl⟩
  rw [List.forall₂_map_right_iff]
  exact List.forall₂_same.2 fun e he => spelled_encodeRecord (h e he)

theorem exists_spells {m' : AttributeMap} {own : Ownership} {buffer : Bytes}
    (h : m.load own buffer = .ok m') : ∃ records, Spells buffer records := by
  obtain ⟨records, hread, -⟩ := exists_of_map_eq_ok h
  exact ⟨records, decodeRecords_eq_ok_iff.1 hread⟩

theorem load_encode_eq {n : AttributeMap} (h : ∀ e ∈ n.toList, e.2.Fits) (m : AttributeMap)
    (own : Ownership) : m.load own n.encode = .ok (m.merge own n.toList) := by
  rw [load, decodeRecords_encode h]
  rfl

theorem not_mem_encode (m : AttributeMap) : Separator.record.byte ∉ m.encode := by
  apply Separator.not_mem_joinWith (by decide)
  intro record hrecord
  obtain ⟨e, -, rfl⟩ := List.mem_map.1 hrecord
  exact not_mem_encodeRecord (by decide) (by decide)

end AttributeMap

namespace Divergences

variable {d : Divergences}

theorem encode_eq (d : Divergences) : d.encode = encodeInt64 d.code ++ Separator.part.byte ::
    Bytes.joinWith Separator.entry.byte (d.toList.map encodeEntry) := rfl

theorem decode_encode (d : Divergences) : decode d.encode = .ok (d.code, d.toList) :=
  decode_eq_ok_iff.2 d.encode_eq

theorem not_mem_encode (d : Divergences) : Separator.record.byte ∉ d.encode := by
  rw [encode_eq]
  apply Separator.not_mem_append (by decide) (roundTrips_int64.not_mem _ d.code)
  apply Separator.not_mem_joinWith (by decide)
  intro entry hentry
  obtain ⟨e, -, rfl⟩ := List.mem_map.1 hentry
  exact not_mem_encodeEntry (by decide) e

theorem load_of_decode {buffer : Bytes} {code : Int64} {pairs : List (Int64 × Int64)}
    (h : decode buffer = .ok (code, pairs)) (d : Divergences) :
    d.load buffer = .ok (d.merge code pairs) := by
  cases buffer with
  | nil => cases h
  | cons b buffer =>
      rw [load, h]
      rfl

/-- A load merges what its buffer spells, unless the buffer is empty. -/
theorem load_spelled {buffer : Bytes} {code : Int64} {pairs : List (Int64 × Int64)}
    (h : Spells buffer code pairs) (d : Divergences) :
    d.load buffer = .ok (d.merge code pairs) ∨
      (code = absentLong ∧ pairs = []) ∧ d.load buffer = .ok d := by
  rcases h with ⟨rfl, hnothing⟩ | hbuffer
  · exact .inr ⟨hnothing, rfl⟩
  · exact .inl (load_of_decode (decode_eq_ok_iff.2 hbuffer) d)

theorem load_cases {buffer : Bytes} {d' : Divergences} (h : d.load buffer = .ok d') :
    buffer = [] ∧ d' = d ∨
      ∃ code pairs, decode buffer = .ok (code, pairs) ∧ d' = d.merge code pairs := by
  rcases cases_of_merge_eq_ok h with hempty | ⟨⟨code, pairs⟩, hread, hmerge⟩
  · exact .inl hempty
  · exact .inr ⟨code, pairs, hread, hmerge⟩

theorem exists_spells {buffer : Bytes} {d' : Divergences} (h : d.load buffer = .ok d') :
    ∃ code pairs, Spells buffer code pairs := by
  rcases load_cases h with ⟨hempty, -⟩ | ⟨code, pairs, hread, -⟩
  · exact ⟨absentLong, [], .inl ⟨hempty, rfl, rfl⟩⟩
  · exact ⟨code, pairs, .inr (decode_eq_ok_iff.1 hread)⟩

theorem load_encode_eq (d n : Divergences) : d.load n.encode = .ok (d.merge n.code n.toList) :=
  load_of_decode n.decode_encode d

end Divergences

namespace Timeline

variable {t : Timeline}

theorem decode_encode (h : t.size ≤ maxCount) : decode t.encode = .ok t.tree.keys := by
  rw [decode_eq_ok_iff, length_keys]
  exact ⟨h, rfl⟩

theorem not_mem_encode (t : Timeline) : Separator.record.byte ∉ t.encode := by
  apply Separator.not_mem_append (by decide) (Separator.record.not_mem_base64 _)
  apply Separator.not_mem_joinWith (by decide)
  intro field hfield
  obtain ⟨key, -, rfl⟩ := List.mem_map.1 hfield
  exact roundTrips_int64.not_mem _ key

theorem load_of_decode {buffer : Bytes} {keys : List Int64} (h : decode buffer = .ok keys)
    (t : Timeline) : t.load buffer = .ok (t.merge keys) := by
  cases buffer with
  | nil => cases h
  | cons b buffer =>
      rw [load, h]
      rfl

/-- A load merges what its buffer spells, unless the buffer is empty. -/
theorem load_spelled {buffer : Bytes} {keys : List Int64} (h : Spells buffer keys) (t : Timeline) :
    t.load buffer = .ok (t.merge keys) ∨ keys = [] ∧ t.load buffer = .ok t := by
  rcases h with ⟨rfl, hnothing⟩ | hbuffer
  · exact .inr ⟨hnothing, rfl⟩
  · exact .inl (load_of_decode (decode_eq_ok_iff.2 hbuffer) t)

theorem load_cases {buffer : Bytes} {t' : Timeline} (h : t.load buffer = .ok t') :
    buffer = [] ∧ t' = t ∨ ∃ keys, decode buffer = .ok keys ∧ t' = t.merge keys :=
  cases_of_merge_eq_ok h

theorem exists_spells {buffer : Bytes} {t' : Timeline} (h : t.load buffer = .ok t') :
    ∃ keys, Spells buffer keys := by
  rcases load_cases h with ⟨hempty, -⟩ | ⟨keys, hread, -⟩
  · exact ⟨[], .inl ⟨hempty, rfl⟩⟩
  · exact ⟨keys, .inr (decode_eq_ok_iff.1 hread)⟩

theorem load_eq_error {buffer : Bytes} (h : ∀ keys, ¬Spells buffer keys) (t : Timeline) :
    ∃ e, t.load buffer = .error e := by
  cases hload : t.load buffer with
  | error e => exact ⟨e, rfl⟩
  | ok t' =>
      obtain ⟨keys, hspells⟩ := exists_spells hload
      exact absurd hspells (h keys)

theorem load_encode_eq {n : Timeline} (h : n.size ≤ maxCount) (t : Timeline) :
    t.load n.encode = .ok (t.merge n.tree.keys) :=
  load_of_decode (decode_encode h) t

end Timeline

namespace IdGenerator

variable {g : IdGenerator}

theorem decode_encode (h : 0 ≤ g.seed ∧ g.seed ≤ seedLimit) : decode g.encode = .ok g.seed :=
  decode_eq_ok_iff.2 ⟨h, rfl⟩

theorem encode_ne_nil (g : IdGenerator) : g.encode ≠ [] := encodeWord_ne_nil (by decide)

theorem load_of_decode {buffer : Bytes} {stored : Int64} (h : decode buffer = .ok stored)
    (g : IdGenerator) : g.load buffer = .ok (g.merge stored) := by
  cases buffer with
  | nil => cases h
  | cons b buffer =>
      rw [load, h]
      rfl

theorem load_cases {buffer : Bytes} {g' : IdGenerator} (h : g.load buffer = .ok g') :
    buffer = [] ∧ g' = g ∨ ∃ stored, decode buffer = .ok stored ∧ g' = g.merge stored :=
  cases_of_merge_eq_ok h

theorem exists_spells {buffer : Bytes} {g' : IdGenerator} (h : g.load buffer = .ok g') :
    ∃ stored, Spells buffer stored := by
  rcases load_cases h with ⟨hempty, -⟩ | ⟨seed, hread, -⟩
  · exact ⟨none, .inl ⟨hempty, rfl⟩⟩
  · exact ⟨some seed, .inr ⟨seed, rfl, decode_eq_ok_iff.1 hread⟩⟩

theorem load_encode_eq {n : IdGenerator} (h : 0 ≤ n.seed ∧ n.seed ≤ seedLimit) (g : IdGenerator) :
    g.load n.encode = .ok (g.merge n.seed) :=
  load_of_decode (decode_encode h) g

end IdGenerator

theorem Payload.not_mem_encode (p : Payload) : Separator.record.byte ∉ p.encode := by
  cases p with
  | attributes m => exact m.not_mem_encode
  | divergences d => exact d.not_mem_encode
  | timeline t => exact t.not_mem_encode
  | generator g => exact roundTrips_int64.not_mem _ g.seed

namespace Address

theorem decodeKind_code (kind : Kind) : decodeKind (encodeUInt8 kind.code) = .ok kind := by
  rw [decodeKind, roundTrips_uint8.read_write, ok_bind, Kind.ofCode?_code]

theorem nextField_cons {α : Type} {what : String} {read : Bytes → Except Error α} {field : Bytes}
    {rest : List Bytes} {v : α} (h : read field = .ok v) :
    nextField what read (field :: rest) = .ok (v, rest) := by
  rw [nextField, h]
  rfl

theorem ofKey_toKey (a : Address) : ofKey a.toKey = .ok a := by
  have hsplit : Bytes.splitOn Separator.key.byte a.toKey =
      [encodeUInt8 a.kind.code, encodeInt64 a.world, encodeInt64 a.time, encodeInt64 a.id] := by
    apply Bytes.splitOn_joinWith (List.cons_ne_nil _ _)
    simp only [List.mem_cons, List.not_mem_nil, or_false, forall_eq_or_imp, forall_eq]
    exact ⟨roundTrips_uint8.not_mem _ _, roundTrips_int64.not_mem _ _,
      roundTrips_int64.not_mem _ _, roundTrips_int64.not_mem _ _⟩
  rw [ofKey, hsplit]
  simp only [nextField_cons (decodeKind_code _), nextField_cons (roundTrips_int64.read_write _),
    ok_bind]
  rfl

theorem toKey_injective {a b : Address} (h : a.toKey = b.toKey) : a = b := by
  have hkeys := a.ofKey_toKey
  rw [h, b.ofKey_toKey, Except.ok.injEq] at hkeys
  exact hkeys.symm

theorem not_mem_toKey (a : Address) : Separator.record.byte ∉ a.toKey := by
  apply Separator.not_mem_joinWith (by decide)
  simp only [List.mem_cons, List.not_mem_nil, or_false, forall_eq_or_imp, forall_eq]
  exact ⟨roundTrips_uint8.not_mem _ _, roundTrips_int64.not_mem _ _,
    roundTrips_int64.not_mem _ _, roundTrips_int64.not_mem _ _⟩

end Address

end ChunkCache
