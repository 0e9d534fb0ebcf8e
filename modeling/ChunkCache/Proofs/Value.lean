import ChunkCache.Proofs.Canonical
import ChunkCache.Value.Codec

namespace ChunkCache

namespace SortedMap

variable {κ β : Type} [Ord κ] {k : κ} {v w : β} {l pairs : List (κ × β)}

theorem ext_entries {m m' : SortedMap κ β} (h : m.entries = m'.entries) : m = m' := by
  cases m
  cases m'
  cases h
  rfl

section Last

variable [Std.TransOrd κ]

theorem place_last (h : ∀ e ∈ l, compare e.1 k = .lt) : place k v l = l ++ [(k, v)] := by
  induction l with
  | nil => rfl
  | cons e l ih =>
      have hgt : compare k e.1 = .gt := Std.OrientedCmp.gt_of_lt (h e List.mem_cons_self)
      rw [place, hgt]
      exact congrArg (e :: ·) (ih fun e' he' => h e' (List.mem_cons_of_mem _ he'))

theorem find_last (h : ∀ e ∈ l, compare e.1 k = .lt) : find k (l ++ [(k, v)]) = some v := by
  induction l with
  | nil => simp [find]
  | cons e l ih =>
      have hgt : compare k e.1 = .gt := Std.OrientedCmp.gt_of_lt (h e List.mem_cons_self)
      rw [List.cons_append, find, hgt, if_neg (by decide)]
      exact ih fun e' he' => h e' (List.mem_cons_of_mem _ he')

theorem place_over_last (h : ∀ e ∈ l, compare e.1 k = .lt) :
    place k w (l ++ [(k, v)]) = l ++ [(k, w)] := by
  induction l with
  | nil => simp [place]
  | cons e l ih =>
      have hgt : compare k e.1 = .gt := Std.OrientedCmp.gt_of_lt (h e List.mem_cons_self)
      rw [List.cons_append, place, hgt]
      exact congrArg (e :: ·) (ih fun e' he' => h e' (List.mem_cons_of_mem _ he'))

omit [Std.TransOrd κ] in
theorem before_last {e : κ × β} (h : (l ++ e :: pairs).Pairwise fun a b => compare a.1 b.1 = .lt) :
    ∀ e' ∈ l, compare e'.1 e.1 = .lt := fun e' he' =>
  (List.pairwise_append.1 h).2.2 e' he' e List.mem_cons_self

theorem foldl_place (h : (l ++ pairs).Pairwise fun a b => compare a.1 b.1 = .lt) :
    pairs.foldl (fun l e => place e.1 e.2 l) l = l ++ pairs := by
  induction pairs generalizing l with
  | nil => rw [List.append_nil, List.foldl_nil]
  | cons e pairs ih =>
      rw [List.foldl_cons, place_last (before_last h), ih]
      · rw [List.append_assoc, List.singleton_append]
      · rwa [List.append_assoc, List.singleton_append]

end Last

variable [Std.TransOrd κ] [Std.LawfulEqOrd κ]

theorem entries_insertMany (m : SortedMap κ β) :
    (m.insertMany pairs).entries = pairs.foldl (fun l e => place e.1 e.2 l) m.entries := by
  induction pairs generalizing m with
  | nil => rfl
  | cons e pairs ih => exact ih (m.insert e.1 e.2)

theorem insertMany_entries (m : SortedMap κ β) : empty.insertMany m.entries = m := by
  apply ext_entries
  rw [entries_insertMany]
  exact foldl_place m.ascending

end SortedMap

namespace Multimap

open SortedMap

variable {k : Int64} {values : List Int64} {l rest : List (Int64 × List Int64)}

theorem ext_entries {m m' : Multimap} (h : m.entries = m'.entries) : m = m' := by
  obtain ⟨entries, pairs, filled, counted⟩ := m
  obtain ⟨entries', pairs', filled', counted'⟩ := m'
  cases h
  rw [Multimap.mk.injEq]
  exact ⟨rfl, counted.trans counted'.symm⟩

def putEntry (l : List (Int64 × List Int64)) (e : Int64 × Int64) : List (Int64 × List Int64) :=
  place e.1 (e.2 :: (find e.1 l).getD []) l

theorem foldl_putEntry_values (hl : ∀ e ∈ l, compare e.1 k = .lt) (hvalues : values ≠ []) :
    (values.reverse.map (k, ·)).foldl putEntry l = l ++ [(k, values)] := by
  induction values with
  | nil => exact absurd rfl hvalues
  | cons v values ih =>
      rw [List.reverse_cons, List.map_append, List.foldl_append]
      cases values with
      | nil =>
          have hnone : find k l = none := find_eq_none fun e he heq => by
            have hlt := hl e he
            rw [Std.LawfulEqCmp.eq_of_compare heq] at hlt
            simp at hlt
          change place k (v :: (find k l).getD []) l = _
          rw [hnone]
          exact place_last hl
      | cons w values =>
          rw [ih (List.cons_ne_nil _ _)]
          change place k (v :: (find k (l ++ [(k, w :: values)])).getD []) _ = _
          rw [find_last hl]
          exact place_over_last hl

theorem foldl_putEntry (h : (l ++ rest).Pairwise fun a b => compare a.1 b.1 = .lt)
    (hfilled : ∀ e ∈ rest, e.2 ≠ []) :
    (rest.flatMap fun e => e.2.reverse.map (e.1, ·)).foldl putEntry l = l ++ rest := by
  induction rest generalizing l with
  | nil => rw [List.append_nil, List.flatMap_nil, List.foldl_nil]
  | cons e rest ih =>
      rw [List.flatMap_cons, List.foldl_append,
        foldl_putEntry_values (before_last h) (hfilled e List.mem_cons_self), ih]
      · rw [List.append_assoc, List.singleton_append]
      · rwa [List.append_assoc, List.singleton_append]
      · exact fun e' he' => hfilled e' (List.mem_cons_of_mem _ he')

theorem entries_foldl_put (m : Multimap) (pairs : List (Int64 × Int64)) :
    (pairs.foldl (fun m e => m.put e.1 e.2) m).entries.entries =
      pairs.foldl putEntry m.entries.entries := by
  induction pairs generalizing m with
  | nil => rfl
  | cons e pairs ih => exact ih (m.put e.1 e.2)

/-- Putting the pairs of a multimap in the order of its history builds it again. -/
theorem ofPairs_history (m : Multimap) : ofPairs m.history = m := by
  apply ext_entries
  apply SortedMap.ext_entries
  rw [ofPairs, entries_foldl_put]
  exact foldl_putEntry m.entries.ascending m.filled

theorem length_flatMap_reverse (l : List (Int64 × List Int64)) :
    (l.flatMap fun e => e.2.reverse.map (e.1, ·)).length = pairCount l := by
  induction l with
  | nil => rfl
  | cons e l ih =>
      rw [List.flatMap_cons, List.length_append, ih, List.length_map, List.length_reverse]
      rfl

theorem length_history (m : Multimap) : m.history.length = m.size := by
  rw [size, m.counted]
  exact length_flatMap_reverse _

end Multimap

namespace Field

variable {α : Type} {write : α → Bytes} {read : Bytes → Except Error α} {field : Bytes}
variable {fields : List Bytes} {count width : Nat}

theorem decodeItems_encodeItems (hfields : ∀ field ∈ fields, Separator.item.byte ∉ field)
    (hcount : count ≤ maxCount) (hlength : fields.length = count * width) :
    decodeItems width (encodeItems count fields) = .ok fields := by
  have hsplit : Bytes.splitOn Separator.item.byte (encodeItems count fields) =
      encodeCount count :: fields := by
    apply Bytes.splitOn_joinWith (List.cons_ne_nil _ _)
    intro field hfield
    rcases List.mem_cons.1 hfield with rfl | hfield
    · exact Separator.item.not_mem_base64 _
    · exact hfields field hfield
  simp only [decodeItems, hsplit, List.headD_cons, List.drop_one, List.tail_cons,
    decodeCount_encodeCount hcount, ok_bind]
  exact if_pos hlength

theorem encodeItems_of_decodeItems (h : decodeItems width field = .ok fields) :
    ∃ count ≤ maxCount, fields.length = count * width ∧ field = encodeItems count fields := by
  unfold decodeItems at h
  dsimp only at h
  have hjoin := Bytes.joinWith_splitOn Separator.item.byte field
  cases hparts : Bytes.splitOn Separator.item.byte field with
  | nil => exact absurd hparts (Bytes.splitOn_ne_nil _ _)
  | cons header rest =>
      rw [hparts] at h hjoin
      obtain ⟨count, hcount, h⟩ := exists_of_bind_eq_ok h
      split at h
      case isFalse => cases h
      cases h
      obtain ⟨hfits, rfl⟩ := decodeCount_eq_ok_iff.1 hcount
      exact ⟨count, hfits, ‹_›, hjoin.symm⟩

theorem not_mem_encodeItems {s : Separator} (hs : s ≠ .item)
    (hfields : ∀ field ∈ fields, s.byte ∉ field) : s.byte ∉ encodeItems count fields := by
  apply Separator.not_mem_joinWith hs
  intro field hfield
  rcases List.mem_cons.1 hfield with rfl | hfield
  · exact s.not_mem_base64 _
  · exact hfields field hfield

/-- The field of an array. -/
def encodeArray (write : α → Bytes) (vs : List α) : Bytes :=
  encodeItems vs.length (vs.map write)

/-- The field of the pairs of a map. -/
def encodePairs (write : α → Bytes) (pairs : List (α × Int64)) : Bytes :=
  encodeItems pairs.length (pairs.flatMap fun e => [write e.1, encodeInt64 e.2])

theorem length_flatMap (write : α → Bytes) (pairs : List (α × Int64)) :
    (pairs.flatMap fun e => [write e.1, encodeInt64 e.2]).length = pairs.length * 2 := by
  induction pairs with
  | nil => rfl
  | cons e pairs ih =>
      simp only [List.flatMap_cons, List.length_append, List.length_cons, List.length_nil, ih]
      omega

theorem pairUp_flatMap (pairs : List (α × Int64)) :
    pairUp (pairs.flatMap fun e => [write e.1, encodeInt64 e.2]) =
      pairs.map fun e => (write e.1, encodeInt64 e.2) := by
  induction pairs with
  | nil => rfl
  | cons e pairs ih => exact congrArg (_ :: ·) ih

theorem flatMap_pairUp (h : fields.length = count * 2) :
    (pairUp fields).flatMap (fun e => [e.1, e.2]) = fields := by
  induction fields using pairUp.induct generalizing count with
  | case1 a b rest ih =>
      cases count with
      | zero => cases h
      | succ count =>
          simp only [List.length_cons] at h
          have hrest : rest.length = count * 2 := by omega
          rw [pairUp, List.flatMap_cons, ih hrest]
          rfl
  | case2 fields hfields =>
      rcases fields with _ | ⟨a, _ | ⟨b, rest⟩⟩
      · rfl
      · rw [List.length_singleton] at h
        omega
      · exact absurd rfl (hfields a b rest)

namespace Canonical

theorem not_mem_map (h : Canonical write read) (s : Separator) (vs : List α) :
    ∀ field ∈ vs.map write, s.byte ∉ field := by
  intro field hfield
  obtain ⟨v, -, rfl⟩ := List.mem_map.1 hfield
  exact h.not_mem s v

theorem not_mem_flatMap (h : Canonical write read) (s : Separator) (pairs : List (α × Int64)) :
    ∀ field ∈ pairs.flatMap fun e => [write e.1, encodeInt64 e.2], s.byte ∉ field := by
  intro field hfield
  obtain ⟨e, -, hfield⟩ := List.mem_flatMap.1 hfield
  rcases List.mem_cons.1 hfield with rfl | hfield
  · exact h.not_mem s e.1
  · rw [List.mem_singleton.1 hfield]
    exact canonical_int64.not_mem s e.2

theorem decodeArray_eq_ok_iff (h : Canonical write read) {vs : List α} :
    decodeArray read field = .ok vs ↔ vs.length ≤ maxCount ∧ field = encodeArray write vs := by
  have hread {fields : List Bytes} : fields.mapM read = .ok vs ↔ fields = vs.map write :=
    mapM_eq_ok_iff_map fun _ _ => h.read_eq_ok_iff
  constructor
  · intro hdecode
    obtain ⟨fields, hfields, hvs⟩ := exists_of_bind_eq_ok hdecode
    obtain ⟨count, hfits, hlength, rfl⟩ := encodeItems_of_decodeItems hfields
    obtain rfl := hread.1 hvs
    rw [List.length_map, Nat.mul_one] at hlength
    rw [hlength, encodeArray, hlength]
    exact ⟨hfits, rfl⟩
  · rintro ⟨hfits, rfl⟩
    have hitems : decodeItems 1 (encodeArray write vs) = .ok (vs.map write) :=
      decodeItems_encodeItems (h.not_mem_map _ vs) hfits (by simp)
    rw [decodeArray, hitems]
    exact hread.2 rfl

theorem decodePairs_eq_ok_iff (h : Canonical write read) {pairs : List (α × Int64)} :
    decodePairs read field = .ok pairs ↔
      pairs.length ≤ maxCount ∧ field = encodePairs write pairs := by
  have hread {fields : List (Bytes × Bytes)} : (fields.mapM fun pair => do
      let key ← read pair.1
      let value ← decodeInt64 pair.2
      return (key, value)) = .ok pairs ↔
        fields = pairs.map fun e => (write e.1, encodeInt64 e.2) := by
    refine mapM_eq_ok_iff_map fun e x => ?_
    constructor
    · intro hx
      obtain ⟨key, hkey, hx⟩ := exists_of_bind_eq_ok hx
      obtain ⟨value, hvalue, hx⟩ := exists_of_bind_eq_ok hx
      cases hx
      exact Prod.ext (h.read_eq_ok_iff.1 hkey) (canonical_int64.read_eq_ok_iff.1 hvalue)
    · rintro rfl
      simp only [h.read_write, canonical_int64.read_write]
      rfl
  constructor
  · intro hdecode
    obtain ⟨fields, hfields, hpairs⟩ := exists_of_bind_eq_ok hdecode
    obtain ⟨count, hfits, hlength, rfl⟩ := encodeItems_of_decodeItems hfields
    have hflat := flatMap_pairUp hlength
    rw [hread.1 hpairs, List.flatMap_map] at hflat
    rw [← hflat, length_flatMap] at hlength
    rw [encodePairs, hflat, Nat.eq_of_mul_eq_mul_right (by decide) hlength]
    exact ⟨hfits, rfl⟩
  · rintro ⟨hfits, rfl⟩
    have hitems : decodeItems 2 (encodePairs write pairs) =
        .ok (pairs.flatMap fun e => [write e.1, encodeInt64 e.2]) :=
      decodeItems_encodeItems (h.not_mem_flatMap _ pairs) hfits (length_flatMap write pairs)
    rw [decodePairs, hitems]
    exact hread.2 (pairUp_flatMap pairs)

end Canonical

end Field

namespace Collection

def itemCount : Collection → Nat
  | longMap m => m.size
  | stringMap m => m.size
  | longMultimap m => m.size

theorem itemCount_of_empty? {ty : AttributeType} {c : Collection} (h : empty? ty = some c) :
    c.itemCount = 0 := by
  cases ty <;> cases h <;> rfl

theorem decode_encode (c : Collection) (h : c.itemCount ≤ Field.maxCount) :
    Value.decode c.type c.encode = .ok (.collection c) := by
  cases c with
  | longMap m =>
      have hpairs : Field.decodePairs Field.decodeInt64 (longMap m).encode = .ok m.entries :=
        Field.canonical_int64.decodePairs_eq_ok_iff.2 ⟨h, rfl⟩
      change (Field.decodePairs Field.decodeInt64 (longMap m).encode).map _ = _
      rw [hpairs]
      exact congrArg (fun m => Except.ok (Value.collection (longMap m))) m.insertMany_entries
  | stringMap m =>
      have hpairs : Field.decodePairs Field.decodeString (stringMap m).encode = .ok m.entries :=
        Field.canonical_string.decodePairs_eq_ok_iff.2 ⟨h, rfl⟩
      change (Field.decodePairs Field.decodeString (stringMap m).encode).map _ = _
      rw [hpairs]
      exact congrArg (fun m => Except.ok (Value.collection (stringMap m))) m.insertMany_entries
  | longMultimap m =>
      have hpairs :
          Field.decodePairs Field.decodeInt64 (longMultimap m).encode = .ok m.history := by
        rw [itemCount, ← m.length_history] at h
        rw [encode, ← m.length_history]
        exact Field.canonical_int64.decodePairs_eq_ok_iff.2 ⟨h, rfl⟩
      change (Field.decodePairs Field.decodeInt64 (longMultimap m).encode).map _ = _
      rw [hpairs]
      exact congrArg (fun m => Except.ok (Value.collection (longMultimap m))) m.ofPairs_history

theorem not_mem_encode {s : Separator} (hs : s ≠ .item) (c : Collection) : s.byte ∉ c.encode := by
  cases c with
  | longMap m =>
      exact Field.not_mem_encodeItems hs (Field.canonical_int64.not_mem_flatMap s m.entries)
  | stringMap m =>
      exact Field.not_mem_encodeItems hs (Field.canonical_string.not_mem_flatMap s m.entries)
  | longMultimap m =>
      exact Field.not_mem_encodeItems hs (Field.canonical_int64.not_mem_flatMap s m.history)

end Collection

namespace Value

def itemCount : Value → Nat
  | bools vs => vs.length
  | strings vs => vs.length
  | longs vs => vs.length
  | ints vs => vs.length
  | doubles vs => vs.length
  | collection c => c.itemCount
  | _ => 0

/-- A count can tell the number of items. -/
def Fits (v : Value) : Prop := v.itemCount ≤ Field.maxCount

theorem decode_encode (v : Value) (h : v.Fits) : decode v.type v.encode = .ok v := by
  cases v with
  | bool v => exact congrArg (Except.map bool) (Field.roundTrips_bool.read_write v)
  | string v => exact congrArg (Except.map string) (Field.roundTrips_string.read_write v)
  | long v => exact congrArg (Except.map long) (Field.roundTrips_int64.read_write v)
  | int v => exact congrArg (Except.map int) (Field.roundTrips_int32.read_write v)
  | double v => exact congrArg (Except.map double) (Field.roundTrips_double.read_write v)
  | bools vs =>
      exact congrArg (Except.map bools) (Field.canonical_bool.decodeArray_eq_ok_iff.2 ⟨h, rfl⟩)
  | strings vs =>
      exact congrArg (Except.map strings) (Field.canonical_string.decodeArray_eq_ok_iff.2 ⟨h, rfl⟩)
  | longs vs =>
      exact congrArg (Except.map longs) (Field.canonical_int64.decodeArray_eq_ok_iff.2 ⟨h, rfl⟩)
  | ints vs =>
      exact congrArg (Except.map ints) (Field.canonical_int32.decodeArray_eq_ok_iff.2 ⟨h, rfl⟩)
  | doubles vs =>
      exact congrArg (Except.map doubles) (Field.canonical_double.decodeArray_eq_ok_iff.2 ⟨h, rfl⟩)
  | collection c => exact c.decode_encode h

theorem not_mem_encode {s : Separator} (hs : s ≠ .item) (v : Value) : s.byte ∉ v.encode := by
  cases v with
  | bool v => exact Field.roundTrips_bool.not_mem s v
  | string v => exact Field.roundTrips_string.not_mem s v
  | long v => exact Field.roundTrips_int64.not_mem s v
  | int v => exact Field.roundTrips_int32.not_mem s v
  | double v => exact Field.roundTrips_double.not_mem s v
  | bools vs => exact Field.not_mem_encodeItems hs (Field.canonical_bool.not_mem_map s vs)
  | strings vs => exact Field.not_mem_encodeItems hs (Field.canonical_string.not_mem_map s vs)
  | longs vs => exact Field.not_mem_encodeItems hs (Field.canonical_int64.not_mem_map s vs)
  | ints vs => exact Field.not_mem_encodeItems hs (Field.canonical_int32.not_mem_map s vs)
  | doubles vs => exact Field.not_mem_encodeItems hs (Field.canonical_double.not_mem_map s vs)
  | collection c => exact c.not_mem_encode hs

end Value

end ChunkCache
