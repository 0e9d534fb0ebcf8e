import ChunkCache.Field
import ChunkCache.Proofs.Base64
import ChunkCache.Proofs.Bytes

namespace ChunkCache

namespace Separator

variable {s sep : Separator} {head tail : Bytes} {pieces : List Bytes}

theorem byte_ne_symbol (s : Separator) (v : Fin 64) : s.byte ≠ Base64.symbol v := by
  cases s <;> revert v <;> decide +kernel

theorem not_mem_base64 (s : Separator) (bs : Bytes) : s.byte ∉ Base64.encode bs := by
  intro h
  obtain ⟨v, hv⟩ := Base64.mem_encode h
  exact s.byte_ne_symbol v hv.symm

theorem byte_ne (h : s ≠ sep) : s.byte ≠ sep.byte := by
  revert h
  cases s <;> cases sep <;> decide

theorem not_mem_joinWith (hsep : s ≠ sep) (h : ∀ piece ∈ pieces, s.byte ∉ piece) :
    s.byte ∉ Bytes.joinWith sep.byte pieces := by
  intro hmem
  rcases Bytes.mem_joinWith hmem with heq | ⟨piece, hpiece, hmem⟩
  · exact byte_ne hsep heq
  · exact h piece hpiece hmem

theorem not_mem_append (hsep : s ≠ sep) (hhead : s.byte ∉ head) (htail : s.byte ∉ tail) :
    s.byte ∉ head ++ sep.byte :: tail := by
  intro h
  rcases List.mem_append.1 h with h | h
  · exact hhead h
  · rcases List.mem_cons.1 h with h | h
    · exact byte_ne hsep h
    · exact htail h

end Separator

namespace Field

/-- What is written reads back, and it holds no separator. -/
structure RoundTrips {α : Type} (write : α → Bytes) (read : Bytes → Except Error α) : Prop where
  read_write : ∀ v, read (write v) = .ok v
  not_mem : ∀ (s : Separator) (v : α), s.byte ∉ write v

theorem ok_bind {α β : Type} (x : α) (f : α → Except Error β) : (Except.ok x >>= f) = f x := (rfl)

theorem exists_of_map_eq_ok {α β : Type} {f : α → β} {r : Except Error α} {b : β}
    (h : r.map f = .ok b) : ∃ a, r = .ok a ∧ f a = b := by
  cases r with
  | error e => cases h
  | ok a => exact ⟨a, rfl, Except.ok.inj h⟩

theorem map_map {α β γ : Type} (r : Except Error α) (f : α → β) (g : β → γ) :
    (r.map f).map g = r.map (g ∘ f) := by
  cases r <;> rfl

theorem map_eq_error_iff {α β : Type} {r : Except Error α} {f : α → β} {e : Error} :
    r.map f = .error e ↔ r = .error e := by
  cases r <;> simp [Except.map]

theorem decodeWord_encodeWord {width n : Nat} (what : String) (h : n < 256 ^ width) :
    decodeWord width what (encodeWord width n) = .ok n := by
  simp only [decodeWord, encodeWord, decodeRaw, Base64.decode_encode, ok_bind]
  rw [if_pos (Bytes.length_bigEndian width n), Bytes.ofBigEndian_bigEndian, Nat.mod_eq_of_lt h]

theorem encodeWord_ne_nil {width n : Nat} (h : 0 < width) : encodeWord width n ≠ [] := by
  apply Base64.encode_ne_nil
  intro hnil
  have hlength := Bytes.length_bigEndian width n
  rw [hnil, List.length_nil] at hlength
  omega

theorem roundTrips_int64 : RoundTrips encodeInt64 decodeInt64 where
  read_write v := by
    rw [decodeInt64, encodeInt64, decodeWord_encodeWord _ v.toUInt64.toNat_lt]
    simp [Except.map]
  not_mem s _ := s.not_mem_base64 _

theorem roundTrips_int32 : RoundTrips encodeInt32 decodeInt32 where
  read_write v := by
    rw [decodeInt32, encodeInt32, decodeWord_encodeWord _ v.toUInt32.toNat_lt]
    simp [Except.map]
  not_mem s _ := s.not_mem_base64 _

theorem roundTrips_uint8 : RoundTrips encodeUInt8 decodeUInt8 where
  read_write v := by
    rw [decodeUInt8, encodeUInt8, decodeWord_encodeWord _ v.toNat_lt]
    simp [Except.map]
  not_mem s _ := s.not_mem_base64 _

/-- The bits of a double are kept, also those of a value that is no number. -/
theorem roundTrips_double : RoundTrips encodeDouble decodeDouble where
  read_write v := by
    rw [decodeDouble, encodeDouble, decodeWord_encodeWord _ v.bits.toNat_lt]
    simp [Except.map]
  not_mem s _ := s.not_mem_base64 _

theorem roundTrips_bool : RoundTrips encodeBool decodeBool where
  read_write v := by cases v <;> rfl
  not_mem s v := by cases s <;> cases v <;> decide

theorem roundTrips_string : RoundTrips encodeString decodeString where
  read_write v := by
    simp only [decodeString, encodeString, decodeRaw, Base64.decode_encode, ok_bind,
      Utf8.decode_ofString]
  not_mem s _ := s.not_mem_base64 _

theorem decodeCount_encodeCount {n : Nat} (h : n ≤ maxCount) :
    decodeCount (encodeCount n) = .ok n := by
  have hlt : n < 2 ^ 63 := Nat.lt_of_le_of_lt h (by decide)
  have hword : n < 256 ^ 8 := Nat.lt_trans hlt (by decide)
  have hint : (Int64.ofNat n).toInt = n := Int64.toInt_ofNat_of_lt hlt
  have hread : decodeInt64 (encodeWord 8 n) = .ok (Int64.ofNat n) := by
    rw [decodeInt64, decodeWord_encodeWord _ hword]
    simp [Except.map]
  have hnonneg : ¬Int64.ofNat n < 0 := by
    rw [Int64.lt_iff_toInt_lt, hint]
    simp
  rw [encodeCount, Nat.min_eq_left h, decodeCount, hread, ok_bind, if_neg hnonneg, hint,
    Int.toNat_natCast]

end Field

end ChunkCache
