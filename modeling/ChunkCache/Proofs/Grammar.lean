import ChunkCache.Payload
import ChunkCache.Proofs.Value

/-!
The formats of saved forms, told by what is written and not by the decoders. A value may be spelled
in several fields, because the pairs of a map may stand in any order; everything else has one
spelling. A text is read as some records, keys, pairs or a seed exactly if it is one of theirs.
-/

namespace ChunkCache

open ChunkCache.Field

namespace Bytes

variable {α : Type} {Spells : Bytes → α → Prop} {text : Bytes} {x : α} {read : Except Error α}

open Classical in
/-- What a text spells, if it spells something. -/
noncomputable def spelled? (text : Bytes) (Spells : Bytes → α → Prop) : Option α :=
  if h : ∃ x, Spells text x then some h.choose else none

theorem spelled?_eq_none_iff : text.spelled? Spells = none ↔ ∀ x, ¬Spells text x := by
  unfold spelled?
  split
  · rename_i hspells
    exact iff_of_false (Option.some_ne_none _) fun hnone => hnone _ hspells.choose_spec
  · rename_i hnone
    exact iff_of_true rfl (not_exists.1 hnone)

/-- Where a reader takes what is spelled and nothing else, there is one thing that a text spells. -/
theorem spelled?_eq_some_iff (hread : ∀ x, read = .ok x ↔ Spells text x) :
    text.spelled? Spells = some x ↔ Spells text x := by
  unfold spelled?
  split
  · rename_i hspells
    have hchosen := (hread _).2 hspells.choose_spec
    rw [← hread, hchosen, Option.some.injEq, Except.ok.injEq]
  · rename_i hnone
    exact iff_of_false (Option.some_ne_none x).symm fun h => hnone ⟨x, h⟩

/-- What a text spells is what such a reader makes of it. -/
theorem spelled?_eq_toOption (hread : ∀ x, read = .ok x ↔ Spells text x) :
    text.spelled? Spells = read.toOption := by
  cases hr : read with
  | error e =>
      refine spelled?_eq_none_iff.2 fun x hx => ?_
      rw [← hread, hr] at hx
      cases hx
  | ok x => exact (spelled?_eq_some_iff hread).2 ((hread x).1 hr)

end Bytes

/-- The fields in which a value may be spelled. Single values and arrays have one; the pairs of a
map may stand in any order, and a later one replaces an earlier one or, in a multimap, stands before
it. -/
inductive Value.Spelled : Value → Bytes → Prop
  | bool (v : Bool) : Spelled (.bool v) (encodeBool v)
  | string (v : String) : Spelled (.string v) (encodeString v)
  | long (v : Int64) : Spelled (.long v) (encodeInt64 v)
  | int (v : Int32) : Spelled (.int v) (encodeInt32 v)
  | double (v : Double) : Spelled (.double v) (encodeDouble v)
  | bools {vs : List Bool} (h : vs.length ≤ maxCount) :
    Spelled (.bools vs) (encodeArray encodeBool vs)
  | strings {vs : List String} (h : vs.length ≤ maxCount) :
    Spelled (.strings vs) (encodeArray encodeString vs)
  | longs {vs : List Int64} (h : vs.length ≤ maxCount) :
    Spelled (.longs vs) (encodeArray encodeInt64 vs)
  | ints {vs : List Int32} (h : vs.length ≤ maxCount) :
    Spelled (.ints vs) (encodeArray encodeInt32 vs)
  | doubles {vs : List Double} (h : vs.length ≤ maxCount) :
    Spelled (.doubles vs) (encodeArray encodeDouble vs)
  | longMap {pairs : List (Int64 × Int64)} (h : pairs.length ≤ maxCount) :
    Spelled (.collection (.longMap (SortedMap.empty.insertMany pairs)))
      (encodePairs encodeInt64 pairs)
  | stringMap {pairs : List (String × Int64)} (h : pairs.length ≤ maxCount) :
    Spelled (.collection (.stringMap (SortedMap.empty.insertMany pairs)))
      (encodePairs encodeString pairs)
  | longMultimap {pairs : List (Int64 × Int64)} (h : pairs.length ≤ maxCount) :
    Spelled (.collection (.longMultimap (Multimap.ofPairs pairs))) (encodePairs encodeInt64 pairs)

theorem Value.decode_eq_ok_iff {ty : AttributeType} {v : Value} {field : Bytes} :
    Value.decode ty field = .ok v ↔ v.type = ty ∧ v.Spelled field := by
  constructor
  · intro h
    cases ty
    all_goals obtain ⟨x, hx, rfl⟩ := exists_of_map_eq_ok h
    case bool => exact ⟨rfl, canonical_bool.read_eq_ok_iff.1 hx ▸ .bool x⟩
    case string => exact ⟨rfl, canonical_string.read_eq_ok_iff.1 hx ▸ .string x⟩
    case long => exact ⟨rfl, canonical_int64.read_eq_ok_iff.1 hx ▸ .long x⟩
    case int => exact ⟨rfl, canonical_int32.read_eq_ok_iff.1 hx ▸ .int x⟩
    case double => exact ⟨rfl, canonical_double.read_eq_ok_iff.1 hx ▸ .double x⟩
    case bools =>
      obtain ⟨hfits, rfl⟩ := canonical_bool.decodeArray_eq_ok_iff.1 hx
      exact ⟨rfl, .bools hfits⟩
    case strings =>
      obtain ⟨hfits, rfl⟩ := canonical_string.decodeArray_eq_ok_iff.1 hx
      exact ⟨rfl, .strings hfits⟩
    case longs =>
      obtain ⟨hfits, rfl⟩ := canonical_int64.decodeArray_eq_ok_iff.1 hx
      exact ⟨rfl, .longs hfits⟩
    case ints =>
      obtain ⟨hfits, rfl⟩ := canonical_int32.decodeArray_eq_ok_iff.1 hx
      exact ⟨rfl, .ints hfits⟩
    case doubles =>
      obtain ⟨hfits, rfl⟩ := canonical_double.decodeArray_eq_ok_iff.1 hx
      exact ⟨rfl, .doubles hfits⟩
    case longMap =>
      obtain ⟨hfits, rfl⟩ := canonical_int64.decodePairs_eq_ok_iff.1 hx
      exact ⟨rfl, .longMap hfits⟩
    case stringMap =>
      obtain ⟨hfits, rfl⟩ := canonical_string.decodePairs_eq_ok_iff.1 hx
      exact ⟨rfl, .stringMap hfits⟩
    case longMultimap =>
      obtain ⟨hfits, rfl⟩ := canonical_int64.decodePairs_eq_ok_iff.1 hx
      exact ⟨rfl, .longMultimap hfits⟩
  · rintro ⟨rfl, h⟩
    cases h with
    | bool v => exact congrArg (Except.map _) (canonical_bool.read_write v)
    | string v => exact congrArg (Except.map _) (canonical_string.read_write v)
    | long v => exact congrArg (Except.map _) (canonical_int64.read_write v)
    | int v => exact congrArg (Except.map _) (canonical_int32.read_write v)
    | double v => exact congrArg (Except.map _) (canonical_double.read_write v)
    | bools h => exact congrArg (Except.map _) (canonical_bool.decodeArray_eq_ok_iff.2 ⟨h, rfl⟩)
    | strings h => exact congrArg (Except.map _) (canonical_string.decodeArray_eq_ok_iff.2 ⟨h, rfl⟩)
    | longs h => exact congrArg (Except.map _) (canonical_int64.decodeArray_eq_ok_iff.2 ⟨h, rfl⟩)
    | ints h => exact congrArg (Except.map _) (canonical_int32.decodeArray_eq_ok_iff.2 ⟨h, rfl⟩)
    | doubles h => exact congrArg (Except.map _) (canonical_double.decodeArray_eq_ok_iff.2 ⟨h, rfl⟩)
    | longMap h => exact congrArg (Except.map _) (canonical_int64.decodePairs_eq_ok_iff.2 ⟨h, rfl⟩)
    | stringMap h =>
        exact congrArg (Except.map _) (canonical_string.decodePairs_eq_ok_iff.2 ⟨h, rfl⟩)
    | longMultimap h =>
        exact congrArg (Except.map _) (canonical_int64.decodePairs_eq_ok_iff.2 ⟨h, rfl⟩)

theorem Value.Spelled.not_mem {s : Separator} {v : Value} {field : Bytes} (hs : s ≠ .item)
    (h : v.Spelled field) : s.byte ∉ field := by
  cases h with
  | bool v => exact canonical_bool.not_mem s v
  | string v => exact canonical_string.not_mem s v
  | long v => exact canonical_int64.not_mem s v
  | int v => exact canonical_int32.not_mem s v
  | double v => exact canonical_double.not_mem s v
  | bools => exact not_mem_encodeItems hs (canonical_bool.not_mem_map s _)
  | strings => exact not_mem_encodeItems hs (canonical_string.not_mem_map s _)
  | longs => exact not_mem_encodeItems hs (canonical_int64.not_mem_map s _)
  | ints => exact not_mem_encodeItems hs (canonical_int32.not_mem_map s _)
  | doubles => exact not_mem_encodeItems hs (canonical_double.not_mem_map s _)
  | longMap => exact not_mem_encodeItems hs (canonical_int64.not_mem_flatMap s _)
  | stringMap => exact not_mem_encodeItems hs (canonical_string.not_mem_flatMap s _)
  | longMultimap => exact not_mem_encodeItems hs (canonical_int64.not_mem_flatMap s _)

namespace AttributeMap

variable {e : Int64 × Value} {record : Bytes}

theorem decodeType_eq_ok_iff {field : Bytes} {ty : AttributeType} :
    decodeType field = .ok ty ↔ field = encodeUInt8 ty.tag := by
  constructor
  · intro h
    obtain ⟨raw, hraw, h⟩ := exists_of_bind_eq_ok h
    split at h
    · rename_i ty hty
      cases h
      rw [canonical_uint8.read_eq_ok_iff.1 hraw, AttributeType.ofTag?_eq_some hty]
    · cases h
  · rintro rfl
    rw [decodeType, canonical_uint8.read_write, ok_bind, AttributeType.ofTag?_tag]

/-- The records in which an attribute may be spelled: its key, the tag of the type of its value and
a field of its value. -/
inductive Spelled : Int64 × Value → Bytes → Prop
  | record (key : Int64) {value : Value} {field : Bytes} (h : value.Spelled field) :
    Spelled (key, value)
      (Bytes.joinWith Separator.entry.byte [encodeInt64 key, encodeUInt8 value.type.tag, field])

theorem Spelled.ne_nil (e : Int64 × Value) : ¬Spelled e [] := by
  intro h
  generalize hrecord : ([] : Bytes) = record at h
  cases h with
  | record key h => exact Bytes.joinWith_ne_nil (encodeWord_ne_nil (by decide)) hrecord.symm

theorem parts_free {s : Separator} {field : Bytes} (key : Int64) (ty : AttributeType)
    (h : s.byte ∉ field) :
    ∀ piece ∈ [encodeInt64 key, encodeUInt8 ty.tag, field], s.byte ∉ piece := by
  simp only [List.mem_cons, List.not_mem_nil, or_false, forall_eq_or_imp, forall_eq]
  exact ⟨canonical_int64.not_mem _ key, canonical_uint8.not_mem _ _, h⟩

theorem Spelled.not_mem (h : Spelled e record) : Separator.part.byte ∉ record := by
  cases h with
  | record key h =>
      exact Separator.not_mem_joinWith (by decide) (parts_free key _ (h.not_mem (by decide)))

theorem decodeRecord_eq_ok_iff : decodeRecord record = .ok e ↔ Spelled e record := by
  constructor
  · intro h
    have hjoin := Bytes.joinWith_splitOn Separator.entry.byte record
    unfold decodeRecord at h
    split at h
    · rename_i key tag value hparts
      obtain ⟨k, hkey, h⟩ := exists_of_bind_eq_ok h
      obtain ⟨ty, htag, h⟩ := exists_of_bind_eq_ok h
      obtain ⟨v, hvalue, h⟩ := exists_of_bind_eq_ok h
      cases h
      obtain ⟨rfl, hspelled⟩ := Value.decode_eq_ok_iff.1 hvalue
      rw [← hjoin, hparts, canonical_int64.read_eq_ok_iff.1 hkey, decodeType_eq_ok_iff.1 htag]
      exact .record k hspelled
    · cases h
  · intro h
    cases h with
    | record key h =>
        rw [decodeRecord, Bytes.splitOn_joinWith (List.cons_ne_nil _ _)
          (parts_free key _ (h.not_mem (by decide)))]
        simp only [canonical_int64.read_write, decodeType_eq_ok_iff.2 rfl, ok_bind,
          Value.decode_eq_ok_iff.2 ⟨rfl, h⟩]
        rfl

/-- The buffer spells these records one after the other; the empty one spells none. -/
def Spells (buffer : Bytes) (records : List (Int64 × Value)) : Prop :=
  ∃ pieces, List.Forall₂ Spelled records pieces ∧
    buffer = Bytes.joinWith Separator.part.byte pieces

theorem decodeRecords_eq_ok_iff {buffer : Bytes} {records : List (Int64 × Value)} :
    decodeRecords buffer = .ok records ↔ Spells buffer records :=
  separated_eq_ok_iff (fun _ _ => decodeRecord_eq_ok_iff) (fun _ _ => Spelled.not_mem)
    Spelled.ne_nil

theorem spelled?_eq_some_iff {buffer : Bytes} {records : List (Int64 × Value)} :
    buffer.spelled? Spells = some records ↔ Spells buffer records :=
  Bytes.spelled?_eq_some_iff fun _ => decodeRecords_eq_ok_iff

theorem spelled?_eq (buffer : Bytes) : buffer.spelled? Spells = (decodeRecords buffer).toOption :=
  Bytes.spelled?_eq_toOption fun _ => decodeRecords_eq_ok_iff

end AttributeMap

namespace Timeline

variable {header body buffer : Bytes} {keys : List Int64}

/-- The part of a saved form after the header. -/
def decodeKeys (body : Bytes) : Except Error (List Int64) :=
  if body.isEmpty then .ok []
  else (Bytes.splitOn Separator.entry.byte body).mapM decodeInt64

theorem decodeKeys_eq_ok_iff : decodeKeys body = .ok keys ↔
    body = Bytes.joinWith Separator.entry.byte (keys.map encodeInt64) :=
  separated_eq_ok_iff_map (fun _ _ => canonical_int64.read_eq_ok_iff)
    (canonical_int64.not_mem .entry) fun _ => encodeWord_ne_nil (by decide)

theorem decode_of_splitOnce (h : Bytes.splitOnce Separator.part.byte buffer = some (header, body)) :
    decode buffer = (do
      let advertised ← decodeCount header
      let keys ← decodeKeys body
      if keys.length = advertised then .ok keys
      else malformed (.timelineCount advertised keys.length)) := by
  rw [decode, h, decodeKeys]
  dsimp only
  cases body.isEmpty <;> rfl

theorem decode_eq_ok_iff : decode buffer = .ok keys ↔ keys.length ≤ maxCount ∧
    buffer = encodeCount keys.length ++ Separator.part.byte ::
      Bytes.joinWith Separator.entry.byte (keys.map encodeInt64) := by
  constructor
  · intro h
    cases hsplit : Bytes.splitOnce Separator.part.byte buffer with
    | none =>
        rw [decode, hsplit] at h
        cases h
    | some parts =>
        rw [decode_of_splitOnce hsplit] at h
        obtain ⟨count, hcount, h⟩ := exists_of_bind_eq_ok h
        obtain ⟨ks, hkeys, h⟩ := exists_of_bind_eq_ok h
        split at h
        case isFalse => cases h
        rename_i hlength
        cases h
        obtain ⟨hfits, hheader⟩ := decodeCount_eq_ok_iff.1 hcount
        rw [Bytes.eq_append_of_splitOnce hsplit, hheader, decodeKeys_eq_ok_iff.1 hkeys, hlength]
        exact ⟨hfits, rfl⟩
  · rintro ⟨hfits, rfl⟩
    have hheader : Separator.part.byte ∉ encodeCount keys.length := Separator.part.not_mem_base64 _
    rw [decode_of_splitOnce (Bytes.splitOnce_append hheader),
      decodeCount_encodeCount hfits, decodeKeys_eq_ok_iff.2 rfl]
    exact if_pos rfl

/-- The buffer spells these keys; the empty one spells none. -/
def Spells (buffer : Bytes) (keys : List Int64) : Prop :=
  buffer = [] ∧ keys = [] ∨
    keys.length ≤ maxCount ∧ buffer = encodeCount keys.length ++ Separator.part.byte ::
      Bytes.joinWith Separator.entry.byte (keys.map encodeInt64)

theorem read_eq_ok_iff :
    (if buffer.isEmpty then .ok [] else decode buffer) = .ok keys ↔ Spells buffer keys := by
  cases buffer with
  | nil =>
      constructor
      · intro h
        cases h
        exact .inl ⟨rfl, rfl⟩
      · rintro (⟨-, rfl⟩ | ⟨-, hbuffer⟩)
        · rfl
        · exact absurd hbuffer.symm (List.append_ne_nil_of_right_ne_nil _ (List.cons_ne_nil _ _))
  | cons b buffer =>
      have hfilled : ¬(b :: buffer = [] ∧ keys = []) := fun h => List.cons_ne_nil _ _ h.1
      exact decode_eq_ok_iff.trans (or_iff_right hfilled).symm

end Timeline

namespace Divergences

variable {header body buffer entry : Bytes} {e : Int64 × Int64} {pairs : List (Int64 × Int64)}
variable {code : Int64}

def encodeEntry (e : Int64 × Int64) : Bytes :=
  encodeInt64 e.1 ++ Separator.item.byte :: encodeInt64 e.2

theorem not_mem_encodeEntry {s : Separator} (h : s ≠ .item) (e : Int64 × Int64) :
    s.byte ∉ encodeEntry e :=
  Separator.not_mem_append h (canonical_int64.not_mem s e.1) (canonical_int64.not_mem s e.2)

theorem encodeEntry_ne_nil (e : Int64 × Int64) : encodeEntry e ≠ [] :=
  List.append_ne_nil_of_right_ne_nil _ (List.cons_ne_nil _ _)

theorem decodeEntry_eq_ok_iff : decodeEntry entry = .ok e ↔ entry = encodeEntry e := by
  constructor
  · intro h
    unfold decodeEntry at h
    split at h
    · cases h
    · rename_i world time hparts
      obtain ⟨w, hworld, h⟩ := exists_of_bind_eq_ok h
      obtain ⟨t, htime, h⟩ := exists_of_bind_eq_ok h
      cases h
      rw [Bytes.eq_append_of_splitOnce hparts, canonical_int64.read_eq_ok_iff.1 hworld,
        canonical_int64.read_eq_ok_iff.1 htime]
      rfl
  · rintro rfl
    rw [decodeEntry, encodeEntry, Bytes.splitOnce_append (canonical_int64.not_mem _ e.1)]
    simp only [canonical_int64.read_write, ok_bind]
    rfl

/-- The part of a saved form after the header. -/
def decodeEntries (body : Bytes) : Except Error (List (Int64 × Int64)) :=
  if body.isEmpty then .ok [] else (Bytes.splitOn Separator.entry.byte body).mapM decodeEntry

theorem decodeEntries_eq_ok_iff : decodeEntries body = .ok pairs ↔
    body = Bytes.joinWith Separator.entry.byte (pairs.map encodeEntry) :=
  separated_eq_ok_iff_map (fun _ _ => decodeEntry_eq_ok_iff) (not_mem_encodeEntry (by decide))
    encodeEntry_ne_nil

theorem decode_of_splitOnce (h : Bytes.splitOnce Separator.part.byte buffer = some (header, body)) :
    decode buffer = (do
      let code ← decodeInt64 header
      let pairs ← decodeEntries body
      return (code, pairs)) := by
  rw [decode, h, decodeEntries]
  dsimp only
  cases body.isEmpty <;> rfl

theorem decode_eq_ok_iff : decode buffer = .ok (code, pairs) ↔
    buffer = encodeInt64 code ++ Separator.part.byte ::
      Bytes.joinWith Separator.entry.byte (pairs.map encodeEntry) := by
  constructor
  · intro h
    cases hsplit : Bytes.splitOnce Separator.part.byte buffer with
    | none =>
        rw [decode, hsplit] at h
        cases h
    | some parts =>
        rw [decode_of_splitOnce hsplit] at h
        obtain ⟨c, hcode, h⟩ := exists_of_bind_eq_ok h
        obtain ⟨es, hentries, h⟩ := exists_of_bind_eq_ok h
        cases h
        rw [Bytes.eq_append_of_splitOnce hsplit, canonical_int64.read_eq_ok_iff.1 hcode,
          decodeEntries_eq_ok_iff.1 hentries]
  · rintro rfl
    rw [decode_of_splitOnce (Bytes.splitOnce_append (canonical_int64.not_mem _ code)),
      canonical_int64.read_write, decodeEntries_eq_ok_iff.2 rfl]
    rfl

/-- The buffer spells this type code and these pairs; the empty one spells none. -/
def Spells (buffer : Bytes) (code : Int64) (pairs : List (Int64 × Int64)) : Prop :=
  buffer = [] ∧ code = absentLong ∧ pairs = [] ∨
    buffer = encodeInt64 code ++ Separator.part.byte ::
      Bytes.joinWith Separator.entry.byte (pairs.map encodeEntry)

end Divergences

namespace IdGenerator

theorem decode_eq_ok_iff {buffer : Bytes} {seed : Int64} : decode buffer = .ok seed ↔
    (0 ≤ seed ∧ seed ≤ seedLimit) ∧ buffer = encodeInt64 seed := by
  constructor
  · intro h
    obtain ⟨stored, hstored, h⟩ := exists_of_bind_eq_ok h
    split at h
    case isFalse => cases h
    cases h
    exact ⟨‹_›, canonical_int64.read_eq_ok_iff.1 hstored⟩
  · rintro ⟨hrange, rfl⟩
    rw [decode, canonical_int64.read_write, ok_bind]
    exact if_pos hrange

/-- The buffer spells this seed; the empty one spells none. -/
def Spells (buffer : Bytes) (stored : Option Int64) : Prop :=
  buffer = [] ∧ stored = none ∨
    ∃ seed, stored = some seed ∧ (0 ≤ seed ∧ seed ≤ seedLimit) ∧ buffer = encodeInt64 seed

theorem decode_eq_ok_iff_spells {buffer : Bytes} {seed : Int64} :
    decode buffer = .ok seed ↔ Spells buffer (some seed) := by
  rw [decode_eq_ok_iff]
  constructor
  · exact fun h => .inr ⟨seed, rfl, h⟩
  · rintro (⟨-, hnone⟩ | ⟨_, hsome, h⟩)
    · cases hnone
    · cases hsome
      exact h

end IdGenerator

/-- The saved forms of a kind, apart from the empty text: records with the separator of parts
between them; the number of keys and as many keys; a type code and pairs of a world and a time; a
seed that no counter exceeds. -/
def Kind.Format : Kind → Bytes → Prop
  | .attributes, buffer => ∃ es records, records ≠ [] ∧
      List.Forall₂ AttributeMap.Spelled es records ∧
      buffer = Bytes.joinWith Separator.part.byte records
  | .timeline, buffer => ∃ keys : List Int64, keys.length ≤ maxCount ∧
      buffer = encodeCount keys.length ++ Separator.part.byte ::
        Bytes.joinWith Separator.entry.byte (keys.map encodeInt64)
  | .divergences, buffer => ∃ (code : Int64) (pairs : List (Int64 × Int64)),
      buffer = encodeInt64 code ++ Separator.part.byte ::
        Bytes.joinWith Separator.entry.byte (pairs.map fun (world, time) =>
          encodeInt64 world ++ Separator.item.byte :: encodeInt64 time)
  | .generator, buffer => ∃ seed : Int64, (0 ≤ seed ∧ seed ≤ IdGenerator.seedLimit) ∧
      buffer = encodeInt64 seed

end ChunkCache
