import ChunkCache.Proofs.Operation

namespace ChunkCache

/-- A result that fails at most because the bytes are malformed. -/
def Blames {α : Type} (r : Except Error α) : Prop :=
  ∀ e, r = .error e → ∃ cause, e = .malformed cause

namespace Blames

variable {α β : Type} {r : Except Error α}

theorem ok (x : α) : Blames (.ok x) := by
  rintro e ⟨⟩

theorem malformed (cause : Malformed) : Blames (Field.malformed cause : Except Error α) := by
  rintro e ⟨⟩
  exact ⟨cause, rfl⟩

theorem bind {f : α → Except Error β} (hr : Blames r) (hf : ∀ x, Blames (f x)) :
    Blames (r >>= f) := by
  intro e h
  cases r with
  | error _ =>
      cases h
      exact hr e rfl
  | ok x => exact hf x e h

theorem map (hr : Blames r) (f : α → β) : Blames (r.map f) := by
  intro e h
  cases r with
  | error _ =>
      cases h
      exact hr e rfl
  | ok x => cases h

theorem ite {c : Prop} [Decidable c] {r' : Except Error α} (hr : Blames r) (hr' : Blames r') :
    Blames (if c then r else r') := by
  split
  · exact hr
  · exact hr'

theorem mapM {read : β → Except Error α} (hread : ∀ x, Blames (read x)) (l : List β) :
    Blames (l.mapM read) := by
  induction l with
  | nil => exact .ok []
  | cons x l ih =>
      rw [List.mapM_cons]
      exact (hread x).bind fun _ => ih.bind fun _ => .ok _

end Blames

namespace Field

variable {α : Type} {read : Bytes → Except Error α}

theorem blames_decodeRaw (field : Bytes) : Blames (decodeRaw field) := by
  unfold decodeRaw
  split
  · exact .ok _
  · exact .malformed _

theorem blames_decodeWord (width : Nat) (what : String) (field : Bytes) :
    Blames (decodeWord width what field) :=
  (blames_decodeRaw field).bind fun _ => .ite (.ok _) (.malformed _)

/-- Every field of a number has a fixed width, and all of its values are taken. -/
theorem blames_number {width : Nat} {what : String} {number : Nat → α} (field : Bytes) :
    Blames ((decodeWord width what field).map number) :=
  (blames_decodeWord width what field).map number

theorem blames_decodeInt64 (field : Bytes) : Blames (decodeInt64 field) := blames_number field

theorem blames_decodeBool (field : Bytes) : Blames (decodeBool field) :=
  .ite (.ok _) (.ite (.ok _) (.malformed _))

theorem blames_decodeString (field : Bytes) : Blames (decodeString field) := by
  refine (blames_decodeRaw field).bind fun raw => ?_
  cases Utf8.decode raw with
  | ok s => exact .ok s
  | error fault => exact .malformed _

theorem blames_decodeCount (field : Bytes) : Blames (decodeCount field) :=
  (blames_decodeInt64 field).bind fun _ => .ite (.malformed _) (.ok _)

theorem blames_decodeItems (width : Nat) (field : Bytes) : Blames (decodeItems width field) :=
  (blames_decodeCount _).bind fun _ => .ite (.ok _) (.malformed _)

theorem blames_decodeArray (hread : ∀ field, Blames (read field)) (field : Bytes) :
    Blames (decodeArray read field) :=
  (blames_decodeItems 1 field).bind fun fields => .mapM hread fields

theorem blames_decodePairs (hread : ∀ field, Blames (read field)) (field : Bytes) :
    Blames (decodePairs read field) := by
  refine (blames_decodeItems 2 field).bind fun fields => .mapM (fun pair => ?_) (pairUp fields)
  exact (hread pair.1).bind fun _ => (blames_decodeInt64 pair.2).bind fun _ => .ok _

end Field

open ChunkCache.Field

theorem Value.blames_decode (ty : AttributeType) (field : Bytes) :
    Blames (Value.decode ty field) := by
  cases ty with
  | bool => exact (blames_decodeBool field).map _
  | string => exact (blames_decodeString field).map _
  | long => exact (blames_decodeInt64 field).map _
  | int => exact (blames_number field).map _
  | double => exact (blames_number field).map _
  | bools => exact (blames_decodeArray blames_decodeBool field).map _
  | strings => exact (blames_decodeArray blames_decodeString field).map _
  | longs => exact (blames_decodeArray blames_decodeInt64 field).map _
  | ints => exact (blames_decodeArray blames_number field).map _
  | doubles => exact (blames_decodeArray blames_number field).map _
  | longMap => exact (blames_decodePairs blames_decodeInt64 field).map _
  | stringMap => exact (blames_decodePairs blames_decodeString field).map _
  | longMultimap => exact (blames_decodePairs blames_decodeInt64 field).map _

namespace AttributeMap

theorem blames_decodeType (field : Bytes) : Blames (decodeType field) := by
  refine (blames_number field).bind fun raw => ?_
  cases AttributeType.ofTag? raw with
  | some ty => exact .ok ty
  | none => exact .malformed _

theorem blames_decodeRecord (record : Bytes) : Blames (decodeRecord record) := by
  unfold decodeRecord
  split
  · rename_i key tag value _
    exact (blames_decodeInt64 key).bind fun _ => (blames_decodeType tag).bind fun ty =>
      (Value.blames_decode ty value).bind fun _ => .ok _
  · exact .malformed _

theorem blames_decodeRecords (buffer : Bytes) : Blames (decodeRecords buffer) :=
  .ite (.ok _) (.mapM blames_decodeRecord _)

end AttributeMap

namespace Divergences

theorem blames_decodeEntry (entry : Bytes) : Blames (decodeEntry entry) := by
  unfold decodeEntry
  split
  · exact .malformed _
  · rename_i world time _
    exact (blames_decodeInt64 world).bind fun _ => (blames_decodeInt64 time).bind fun _ => .ok _

theorem blames_decode (buffer : Bytes) : Blames (decode buffer) := by
  unfold decode
  split
  · exact .malformed _
  · rename_i header body _
    refine (blames_decodeInt64 header).bind fun _ => .ite (.ok _) ?_
    exact (Blames.mapM blames_decodeEntry _).bind fun _ => .ok _

end Divergences

theorem Timeline.blames_decode (buffer : Bytes) : Blames (Timeline.decode buffer) := by
  unfold decode
  split
  · exact .malformed _
  · rename_i header body _
    refine (blames_decodeCount header).bind fun _ => .ite (.ite (.ok _) (.malformed _)) ?_
    exact (Blames.mapM blames_decodeInt64 _).bind fun _ => .ite (.ok _) (.malformed _)

theorem IdGenerator.blames_decode (buffer : Bytes) : Blames (IdGenerator.decode buffer) :=
  (blames_decodeInt64 buffer).bind fun _ => .ite (.ok _) (.malformed _)

/-- Decode a buffer as a saved form of this kind, and keep nothing of it. An empty buffer is taken
by every kind. -/
def Kind.check (kind : Kind) (buffer : Bytes) : Except Error Unit :=
  match kind with
  | .attributes => (AttributeMap.decodeRecords buffer).map fun _ => ()
  | .divergences => if buffer.isEmpty then .ok () else (Divergences.decode buffer).map fun _ => ()
  | .timeline => if buffer.isEmpty then .ok () else (Timeline.decode buffer).map fun _ => ()
  | .generator => if buffer.isEmpty then .ok () else (IdGenerator.decode buffer).map fun _ => ()

theorem Kind.blames_check (kind : Kind) (buffer : Bytes) : Blames (kind.check buffer) := by
  cases kind with
  | attributes => exact (AttributeMap.blames_decodeRecords buffer).map _
  | divergences => exact .ite (.ok _) ((Divergences.blames_decode buffer).map _)
  | timeline => exact .ite (.ok _) ((Timeline.blames_decode buffer).map _)
  | generator => exact .ite (.ok _) ((IdGenerator.blames_decode buffer).map _)

theorem Kind.check_eq_ok_iff {kind : Kind} {buffer : Bytes} :
    kind.check buffer = .ok () ↔ buffer = [] ∨ kind.Format buffer := by
  have hdecoded {α : Type} {r : Except Error α} :
      r.map (fun _ => ()) = .ok () ↔ ∃ x, r = .ok x := by
    cases r <;> simp [Except.map]
  have hfilled {α : Type} {r : Except Error α} : (if buffer.isEmpty then .ok () else
      r.map fun _ => ()) = .ok () ↔ buffer = [] ∨ ∃ x, r = .ok x := by
    rw [← hdecoded, ← List.isEmpty_iff]
    split <;> simp [*]
  cases kind with
  | attributes =>
      rw [check, hdecoded]
      simp only [AttributeMap.decodeRecords_eq_ok_iff]
      constructor
      · rintro ⟨es, records, hrecords, rfl⟩
        cases records with
        | nil => exact .inl rfl
        | cons record records => exact .inr ⟨es, _, List.cons_ne_nil _ _, hrecords, rfl⟩
      · rintro (rfl | ⟨es, records, -, hrecords, rfl⟩)
        · exact ⟨[], [], .nil, rfl⟩
        · exact ⟨es, records, hrecords, rfl⟩
  | timeline =>
      rw [check, hfilled]
      simp only [Timeline.decode_eq_ok_iff]
      rfl
  | divergences =>
      rw [check, hfilled]
      simp only [Prod.exists, Divergences.decode_eq_ok_iff]
      rfl
  | generator =>
      rw [check, hfilled]
      simp only [IdGenerator.decode_eq_ok_iff]
      rfl

namespace Payload

variable {p : Payload} {own : Ownership} {buffer : Bytes} {e : Error}

/-- Whether a saved form is taken does not depend on what the payload holds. -/
theorem load_check (p : Payload) (own : Ownership) (buffer : Bytes) :
    (p.load own buffer).map (fun _ => ()) = p.kind.check buffer := by
  cases p with
  | attributes m =>
      rw [load, AttributeMap.load, Field.map_map, Field.map_map]
      rfl
  | divergences d =>
      rw [load, Divergences.load, kind, Kind.check]
      split
      · rfl
      · rw [Field.map_map, Field.map_map]
  | timeline t =>
      rw [load, Timeline.load, kind, Kind.check]
      split
      · rfl
      · rw [Field.map_map, Field.map_map]
  | generator g =>
      rw [load, IdGenerator.load, kind, Kind.check]
      split
      · rfl
      · rw [Field.map_map, Field.map_map]

theorem load_eq_error_iff : p.load own buffer = .error e ↔ p.kind.check buffer = .error e := by
  rw [← load_check p own buffer, Field.map_eq_error_iff]

/-- Whatever a payload holds, it takes the empty text and the saved forms of its kind. Every other
text is reported as malformed, and the payload is then as it was. -/
theorem load_accepts (p : Payload) (own : Ownership) (buffer : Bytes) :
    ((∃ p', p.load own buffer = .ok p') ↔ buffer = [] ∨ p.kind.Format buffer) ∧
      ((∃ p', p.load own buffer = .ok p') ∨
        (∃ cause, p.load own buffer = .error (.malformed cause)) ∧
          (Operation.load own buffer).on p = p) := by
  have hcheck := p.load_check own buffer
  constructor
  · rw [← Kind.check_eq_ok_iff, ← hcheck]
    cases p.load own buffer <;> simp [Except.map]
  · cases hload : p.load own buffer with
    | ok p' => exact .inl ⟨p', rfl⟩
    | error e =>
        obtain ⟨cause, rfl⟩ := p.kind.blames_check buffer e (load_eq_error_iff.1 hload)
        rw [Operation.on, hload]
        exact .inr ⟨⟨cause, rfl⟩, rfl⟩

end Payload

end ChunkCache
