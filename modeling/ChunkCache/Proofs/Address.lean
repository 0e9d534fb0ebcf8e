import ChunkCache.Proofs.Malformed

namespace ChunkCache.Address

open ChunkCache.Field

variable {α : Type} {a : Address} {kind : Kind} {key field : Bytes} {fields rest : List Bytes}
variable {what : String} {read : Bytes → Except Error α} {v : α}

theorem exists_of_nextField (h : nextField what read fields = .ok (v, rest)) :
    ∃ field, fields = field :: rest ∧ read field = .ok v := by
  cases fields with
  | nil => cases h
  | cons field fields =>
      obtain ⟨x, hx, heq⟩ := exists_of_map_eq_ok h
      cases heq
      exact ⟨field, rfl, hx⟩

theorem decodeKind_eq_ok_iff : decodeKind field = .ok kind ↔ field = encodeUInt8 kind.code := by
  constructor
  · intro h
    obtain ⟨raw, hraw, h⟩ := exists_of_bind_eq_ok h
    split at h
    · rename_i kind hkind
      cases h
      rw [canonical_uint8.read_eq_ok_iff.1 hraw, Kind.ofCode?_eq_some hkind]
    · cases h
  · rintro rfl
    exact decodeKind_code kind

/-- What is read as an address has four fields, and each of them is the one that is written. -/
theorem toKey_of_ofKey (h : ofKey key = .ok a) : a.toKey = key := by
  obtain ⟨⟨kind, afterKind⟩, hkind, h⟩ := exists_of_bind_eq_ok h
  obtain ⟨⟨world, afterWorld⟩, hworld, h⟩ := exists_of_bind_eq_ok h
  obtain ⟨⟨time, afterTime⟩, htime, h⟩ := exists_of_bind_eq_ok h
  obtain ⟨⟨id, afterId⟩, hid, h⟩ := exists_of_bind_eq_ok h
  dsimp only at h
  split at h
  case isFalse => cases h
  rename_i hlast
  obtain rfl := List.isEmpty_iff.1 hlast
  cases h
  obtain ⟨first, hsplit, hfirst⟩ := exists_of_nextField hkind
  obtain ⟨second, rfl, hsecond⟩ := exists_of_nextField hworld
  obtain ⟨third, rfl, hthird⟩ := exists_of_nextField htime
  obtain ⟨fourth, rfl, hfourth⟩ := exists_of_nextField hid
  rw [← Bytes.joinWith_splitOn Separator.key.byte key, hsplit, decodeKind_eq_ok_iff.1 hfirst,
    canonical_int64.read_eq_ok_iff.1 hsecond, canonical_int64.read_eq_ok_iff.1 hthird,
    canonical_int64.read_eq_ok_iff.1 hfourth]
  rfl

theorem blames_nextField (hread : ∀ field, Blames (read field)) (fields : List Bytes) :
    Blames (nextField what read fields) := by
  cases fields with
  | nil => exact .malformed _
  | cons field fields => exact (hread field).map _

theorem blames_decodeKind (field : Bytes) : Blames (decodeKind field) := by
  refine (blames_number field).bind fun raw => ?_
  cases Kind.ofCode? raw with
  | some kind => exact .ok kind
  | none => exact .malformed _

theorem blames_ofKey (key : Bytes) : Blames (ofKey key) := by
  refine (blames_nextField blames_decodeKind _).bind fun afterKind => ?_
  refine (blames_nextField blames_decodeInt64 _).bind fun afterWorld => ?_
  refine (blames_nextField blames_decodeInt64 _).bind fun afterTime => ?_
  refine (blames_nextField blames_decodeInt64 _).bind fun afterId => ?_
  exact .ite (.ok _) (.malformed _)

theorem ofKey_eq_ok_iff : ofKey key = .ok a ↔ key = a.toKey := by
  constructor
  · intro h
    exact (toKey_of_ofKey h).symm
  · rintro rfl
    exact a.ofKey_toKey

/-- A byte string is read as an address exactly if it is the key of this address. Different
addresses have different keys, every byte string that is no key is reported as malformed, and no key
holds the byte that separates the records of a batch. -/
theorem keys_exact :
    (∀ key a, ofKey key = .ok a ↔ key = a.toKey) ∧
    (∀ a b : Address, a.toKey = b.toKey ↔ a = b) ∧
    (∀ key, (∃ cause, ofKey key = .error (.malformed cause)) ↔ ∀ a : Address, key ≠ a.toKey) ∧
    ∀ a : Address, Separator.record.byte ∉ a.toKey := by
  refine ⟨fun key a => ofKey_eq_ok_iff, fun a b => ⟨toKey_injective, congrArg toKey⟩, fun key => ?_,
    not_mem_toKey⟩
  constructor
  · rintro ⟨cause, herror⟩ a rfl
    rw [a.ofKey_toKey] at herror
    cases herror
  · intro hkey
    cases hread : ofKey key with
    | ok a => exact absurd (ofKey_eq_ok_iff.1 hread) (hkey a)
    | error e =>
        obtain ⟨cause, rfl⟩ := blames_ofKey key e hread
        exact ⟨cause, rfl⟩

end ChunkCache.Address
