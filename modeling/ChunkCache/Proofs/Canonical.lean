import Mathlib.Data.List.Forall2
import ChunkCache.Proofs.Field

namespace ChunkCache

theorem Utf8.ofString_of_decode {bs : Bytes} {s : String} (h : decode bs = .ok s) :
    Bytes.ofString s = bs := by
  unfold decode at h
  split at h
  case h_2 => cases h
  rename_i s' hs
  cases h
  rw [String.fromUTF8?] at hs
  split at hs
  case isFalse => cases hs
  cases hs
  simp [Bytes.ofString, String.fromUTF8]

namespace Field

variable {α : Type} {field raw : Bytes} {width n : Nat} {what : String}

/-- What is written reads back, and nothing else is read. -/
structure Canonical (write : α → Bytes) (read : Bytes → Except Error α) : Prop
    extends RoundTrips write read where
  write_of_read : ∀ field v, read field = .ok v → write v = field

theorem Canonical.read_eq_ok_iff {write : α → Bytes} {read : Bytes → Except Error α}
    (h : Canonical write read) {v : α} : read field = .ok v ↔ field = write v :=
  ⟨fun hread => (h.write_of_read field v hread).symm, fun heq => heq ▸ h.read_write v⟩

theorem encode_of_decodeRaw (h : decodeRaw field = .ok raw) : Base64.encode raw = field := by
  unfold decodeRaw at h
  split at h
  · rename_i bs hbs
    cases h
    exact (Base64.decode_eq_ok_iff.1 hbs).symm
  · cases h

theorem encodeWord_of_decodeWord (h : decodeWord width what field = .ok n) :
    n < 256 ^ width ∧ encodeWord width n = field := by
  obtain ⟨raw, hraw, h⟩ := exists_of_bind_eq_ok h
  split at h
  case isFalse => cases h
  rename_i hwidth
  cases h
  rw [encodeWord, ← hwidth, Bytes.bigEndian_ofBigEndian]
  exact ⟨Bytes.ofBigEndian_lt raw, encode_of_decodeRaw hraw⟩

/-- A type of numbers of a fixed width: every word that fits is the word of the value that is made
of it. -/
theorem encodeWord_of_number {v : α} (number : Nat → α) (word : α → Nat)
    (hword : ∀ n, n < 256 ^ width → word (number n) = n)
    (h : (decodeWord width what field).map number = .ok v) : encodeWord width (word v) = field := by
  obtain ⟨n, hn, rfl⟩ := exists_of_map_eq_ok h
  obtain ⟨hlt, hfield⟩ := encodeWord_of_decodeWord hn
  rw [hword n hlt, hfield]

theorem canonical_int64 : Canonical encodeInt64 decodeInt64 where
  toRoundTrips := roundTrips_int64
  write_of_read _ _ h :=
    encodeWord_of_number (fun n => (UInt64.ofNat n).toInt64) (fun v => v.toUInt64.toNat)
      (fun n hn => by simpa using hn) h

theorem canonical_int32 : Canonical encodeInt32 decodeInt32 where
  toRoundTrips := roundTrips_int32
  write_of_read _ _ h :=
    encodeWord_of_number (fun n => (UInt32.ofNat n).toInt32) (fun v => v.toUInt32.toNat)
      (fun n hn => by simpa using hn) h

theorem canonical_uint8 : Canonical encodeUInt8 decodeUInt8 where
  toRoundTrips := roundTrips_uint8
  write_of_read _ _ h :=
    encodeWord_of_number UInt8.ofNat UInt8.toNat (fun n hn => by simpa using hn) h

theorem canonical_double : Canonical encodeDouble decodeDouble where
  toRoundTrips := roundTrips_double
  write_of_read _ _ h :=
    encodeWord_of_number (fun n => (⟨UInt64.ofNat n⟩ : Double)) (fun v => v.bits.toNat)
      (fun n hn => by simpa using hn) h

theorem canonical_bool : Canonical encodeBool decodeBool where
  toRoundTrips := roundTrips_bool
  write_of_read field v h := by
    unfold decodeBool at h
    split at h
    · cases h
      exact Eq.symm ‹_›
    split at h
    · cases h
      exact Eq.symm ‹_›
    · cases h

theorem canonical_string : Canonical encodeString decodeString where
  toRoundTrips := roundTrips_string
  write_of_read field v h := by
    obtain ⟨raw, hraw, h⟩ := exists_of_bind_eq_ok h
    split at h
    · rename_i s hs
      cases h
      rw [encodeString, Utf8.ofString_of_decode hs, encode_of_decodeRaw hraw]
    · cases h

theorem encodeCount_of_decodeCount (h : decodeCount field = .ok n) :
    n ≤ maxCount ∧ encodeCount n = field := by
  obtain ⟨raw, hraw, h⟩ := exists_of_bind_eq_ok h
  split at h
  · cases h
  rename_i hnonneg
  cases h
  have hlt : raw.toInt.toNat < 2 ^ 63 := by
    have hbound := raw.toInt_lt
    omega
  have hfits : raw.toInt.toNat ≤ maxCount := Nat.le_of_lt_succ hlt
  have hword : raw.toUInt64.toNat = raw.toInt.toNat :=
    Int64.toNat_toUInt64_of_le (Int64.not_lt.1 hnonneg)
  refine ⟨hfits, ?_⟩
  rw [encodeCount, Nat.min_eq_left hfits, ← hword]
  exact canonical_int64.write_of_read field raw hraw

theorem decodeCount_eq_ok_iff : decodeCount field = .ok n ↔ n ≤ maxCount ∧ field = encodeCount n :=
  ⟨fun h => (encodeCount_of_decodeCount h).imp_right Eq.symm,
    fun ⟨hfits, heq⟩ => heq ▸ decodeCount_encodeCount hfits⟩

/-- Of every type of fields, a text is read as a value exactly if it is what is written for the
value, and no written text holds one of the separators. Only a count that is too great for its field
is written as another one, and it is never read. -/
theorem one_written_form :
    (∀ field v, decodeInt64 field = .ok v ↔ field = encodeInt64 v) ∧
    (∀ field v, decodeInt32 field = .ok v ↔ field = encodeInt32 v) ∧
    (∀ field v, decodeUInt8 field = .ok v ↔ field = encodeUInt8 v) ∧
    (∀ field v, decodeDouble field = .ok v ↔ field = encodeDouble v) ∧
    (∀ field v, decodeBool field = .ok v ↔ field = encodeBool v) ∧
    (∀ field v, decodeString field = .ok v ↔ field = encodeString v) ∧
    (∀ field n, decodeCount field = .ok n ↔ n ≤ maxCount ∧ field = encodeCount n) ∧
    ∀ s : Separator,
      (∀ v, s.byte ∉ encodeInt64 v) ∧ (∀ v, s.byte ∉ encodeInt32 v) ∧
      (∀ v, s.byte ∉ encodeUInt8 v) ∧ (∀ v, s.byte ∉ encodeDouble v) ∧
      (∀ v, s.byte ∉ encodeBool v) ∧ (∀ v, s.byte ∉ encodeString v) ∧
      ∀ n, s.byte ∉ encodeCount n := by
  refine ⟨fun _ _ => canonical_int64.read_eq_ok_iff, fun _ _ => canonical_int32.read_eq_ok_iff,
    fun _ _ => canonical_uint8.read_eq_ok_iff, fun _ _ => canonical_double.read_eq_ok_iff,
    fun _ _ => canonical_bool.read_eq_ok_iff, fun _ _ => canonical_string.read_eq_ok_iff,
    fun _ _ => decodeCount_eq_ok_iff, fun s => ?_⟩
  exact ⟨canonical_int64.not_mem s, canonical_int32.not_mem s, canonical_uint8.not_mem s,
    canonical_double.not_mem s, canonical_bool.not_mem s, canonical_string.not_mem s,
    fun n => s.not_mem_base64 _⟩

section Lists

variable {α β : Type}

theorem mapM_eq_ok_iff {read : β → Except Error α} {l : List β} {vs : List α} :
    l.mapM read = .ok vs ↔ List.Forall₂ (fun v x => read x = .ok v) vs l := by
  induction l generalizing vs with
  | nil =>
      rw [List.forall₂_nil_right_iff]
      exact ⟨fun h => (Except.ok.inj h).symm, fun h => h ▸ rfl⟩
  | cons x l ih =>
      rw [List.mapM_cons, List.forall₂_cons_right_iff]
      constructor
      · intro h
        obtain ⟨v, hv, h⟩ := exists_of_bind_eq_ok h
        obtain ⟨rest, hrest, h⟩ := exists_of_bind_eq_ok h
        exact ⟨v, rest, hv, ih.1 hrest, (Except.ok.inj h).symm⟩
      · rintro ⟨v, rest, hv, hrest, rfl⟩
        rw [hv, ih.2 hrest]
        rfl

/-- Of a type with one written form for every value, a list is read from the written forms of its
values. -/
theorem mapM_eq_ok_iff_map {read : β → Except Error α} {write : α → β}
    (hread : ∀ v x, read x = .ok v ↔ x = write v) {l : List β} {vs : List α} :
    l.mapM read = .ok vs ↔ l = vs.map write := by
  simp only [mapM_eq_ok_iff, hread]
  induction vs generalizing l with
  | nil => exact List.forall₂_nil_left_iff
  | cons v vs ih =>
      cases l with
      | nil => exact iff_of_false nofun nofun
      | cons x l => rw [List.forall₂_cons, ih, List.map_cons, List.cons.injEq]

section Separated

variable {read : Bytes → Except Error α} {Spelled : α → Bytes → Prop} {sep : UInt8} {body : Bytes}
variable {vs : List α} {pieces : List Bytes}

theorem not_mem_of_spelled (hsep : ∀ v piece, Spelled v piece → sep ∉ piece)
    (h : List.Forall₂ Spelled vs pieces) : ∀ piece ∈ pieces, sep ∉ piece := by
  induction h with
  | nil => exact fun _ h => absurd h List.not_mem_nil
  | cons hv _ ih => exact List.forall_mem_cons.2 ⟨hsep _ _ hv, ih⟩

/-- Texts with a separator between them are read text by text. Of the empty text no values are
read. -/
theorem separated_eq_ok_iff (hread : ∀ v piece, read piece = .ok v ↔ Spelled v piece)
    (hsep : ∀ v piece, Spelled v piece → sep ∉ piece) (hne : ∀ v, ¬Spelled v []) :
    (if body.isEmpty then .ok [] else (Bytes.splitOn sep body).mapM read) = .ok vs ↔
      ∃ pieces, List.Forall₂ Spelled vs pieces ∧ body = Bytes.joinWith sep pieces := by
  constructor
  · intro h
    split at h
    · cases h
      exact ⟨[], .nil, List.isEmpty_iff.1 ‹_›⟩
    · refine ⟨_, ?_, (Bytes.joinWith_splitOn sep body).symm⟩
      exact (mapM_eq_ok_iff.1 h).imp fun v piece => (hread v piece).1
  · rintro ⟨pieces, hpieces, rfl⟩
    have hfree := not_mem_of_spelled hsep hpieces
    have hpieces' := mapM_eq_ok_iff.2 (hpieces.imp fun v piece => (hread v piece).2)
    cases hpieces with
    | nil => rfl
    | cons hv =>
        rw [if_neg, Bytes.splitOn_joinWith (List.cons_ne_nil _ _) hfree, hpieces']
        intro hempty
        refine Bytes.joinWith_ne_nil ?_ (List.isEmpty_iff.1 hempty)
        rintro rfl
        exact hne _ hv

/-- The same for a type with one written form for every value. -/
theorem separated_eq_ok_iff_map {write : α → Bytes}
    (hread : ∀ v piece, read piece = .ok v ↔ piece = write v) (hsep : ∀ v, sep ∉ write v)
    (hne : ∀ v, write v ≠ []) :
    (if body.isEmpty then .ok [] else (Bytes.splitOn sep body).mapM read) = .ok vs ↔
      body = Bytes.joinWith sep (vs.map write) := by
  rw [separated_eq_ok_iff hread (fun v piece h => h ▸ hsep v) fun v h => hne v h.symm]
  constructor
  · rintro ⟨pieces, hpieces, rfl⟩
    have hmap := (mapM_eq_ok_iff_map hread).1
      (mapM_eq_ok_iff.2 (hpieces.imp fun v piece => (hread v piece).2))
    rw [hmap]
  · intro h
    refine ⟨_, ?_, h⟩
    rw [List.forall₂_map_right_iff]
    exact List.forall₂_same.2 fun _ _ => rfl

end Separated

end Lists

end Field

end ChunkCache
