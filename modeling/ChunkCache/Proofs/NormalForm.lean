import ChunkCache.Proofs.Grammar

namespace ChunkCache

namespace SortedMap

variable {κ β : Type} [Ord κ]

theorem length_place_le (k : κ) (v : β) (l : List (κ × β)) :
    (place k v l).length ≤ l.length + 1 := by
  induction l with
  | nil => exact Nat.le_refl 1
  | cons e l ih =>
      rw [place]
      split
      · exact Nat.le_refl _
      · exact Nat.le_succ _
      · exact Nat.succ_le_succ ih

theorem size_insertMany_le [Std.TransOrd κ] [Std.LawfulEqOrd κ] (m : SortedMap κ β)
    (pairs : List (κ × β)) : (m.insertMany pairs).size ≤ m.size + pairs.length := by
  induction pairs generalizing m with
  | nil => exact Nat.le_refl _
  | cons e pairs ih =>
      calc (m.insertMany (e :: pairs)).size
        _ ≤ (m.insert e.1 e.2).size + pairs.length := ih (m.insert e.1 e.2)
        _ ≤ m.size + 1 + pairs.length :=
          Nat.add_le_add_right (length_place_le e.1 e.2 m.entries) pairs.length
        _ = m.size + (e :: pairs).length := by rw [List.length_cons]; omega

end SortedMap

namespace Multimap

/-- No pair replaces another one. -/
theorem size_foldl_put (m : Multimap) (pairs : List (Int64 × Int64)) :
    (pairs.foldl (fun m e => m.put e.1 e.2) m).size = m.size + pairs.length := by
  induction pairs generalizing m with
  | nil => rfl
  | cons e pairs ih =>
      rw [List.foldl_cons, ih, List.length_cons]
      change m.size + 1 + pairs.length = _
      omega

theorem size_ofPairs (pairs : List (Int64 × Int64)) : (ofPairs pairs).size = pairs.length :=
  (size_foldl_put empty pairs).trans (Nat.zero_add _)

end Multimap

/-- The number of fields that an item of an array or a map spans. -/
def AttributeType.itemWidth? : AttributeType → Option Nat
  | .bools | .strings | .longs | .ints | .doubles => some 1
  | .longMap | .stringMap | .longMultimap => some 2
  | _ => none

theorem AttributeType.itemWidth?_le {ty : AttributeType} {width : Nat}
    (h : ty.itemWidth? = some width) : width ≤ 2 := by
  cases ty <;> cases h <;> decide

namespace Field

variable {field header : Bytes} {items : List Bytes} {count width : Nat}

theorem decodeItems_of_splitOn
    (hsplit : Bytes.splitOn Separator.item.byte field = header :: items)
    (hcount : decodeCount header = .ok count) :
    decodeItems width field =
      if items.length = count * width then .ok items
      else malformed (.itemCount count width items.length) := by
  simp only [decodeItems, hsplit, List.headD_cons, List.drop_one, List.tail_cons, hcount, ok_bind]

/-- A count that can be read is so small that the fields of its items can be counted in a machine
word, one or two for each. -/
theorem toNat_count_mul (hcount : decodeCount header = .ok count) (hwidth : width ≤ 2) :
    (UInt64.ofNat count * UInt64.ofNat width).toNat = count * width := by
  have hfits : count ≤ maxCount := (decodeCount_eq_ok_iff.1 hcount).1
  have hproduct : count * width < UInt64.size :=
    calc count * width
      _ ≤ maxCount * 2 := Nat.mul_le_mul hfits hwidth
      _ < UInt64.size := by decide
  rw [← UInt64.ofNat_mul, UInt64.toNat_ofNat_of_lt' hproduct]

end Field

namespace Value

variable {ty : AttributeType} {v : Value} {field : Bytes}

theorem decode_of_decodeItems {width : Nat} {e : Error} (hty : ty.itemWidth? = some width)
    (h : Field.decodeItems width field = .error e) : decode ty field = .error e := by
  cases ty with
  | bool | string | long | int | double => cases hty
  | bools | strings | longs | ints | doubles =>
      cases hty
      apply Field.map_eq_error_iff.2
      rw [Field.decodeArray, h]
      rfl
  | longMap | stringMap | longMultimap =>
      cases hty
      apply Field.map_eq_error_iff.2
      rw [Field.decodePairs, h]
      rfl

theorem Spelled.fits (h : v.Spelled field) : v.Fits := by
  -- A map has no more bindings than its field has pairs.
  cases h with
  | bool | string | long | int | double => exact Nat.zero_le _
  | bools h | strings h | longs h | ints h | doubles h => exact h
  | @longMap pairs h =>
      have hsize := (SortedMap.empty (κ := Int64) (β := Int64)).size_insertMany_le pairs
      exact hsize.trans ((Nat.zero_add _).trans_le h)
  | @stringMap pairs h =>
      have hsize := (SortedMap.empty (κ := String) (β := Int64)).size_insertMany_le pairs
      exact hsize.trans ((Nat.zero_add _).trans_le h)
  | @longMultimap pairs h => exact (Multimap.size_ofPairs pairs).trans_le h

theorem Spelled.eq_encode (h : v.Spelled field) (hv : v.type.isCollection = false) :
    v.encode = field := by
  cases h with
  | longMap | stringMap | longMultimap => cases hv
  | _ => rfl

/-- Writing and reading are inverse to each other, whatever the type. A value whose items a count
can tell, as it can tell every number of items in memory, reads back from its field. A text that is
read as a value need not be its field if the value is a map, but the field reads as the same value
and is written again. The number of fields that a count announces never exceeds a machine word, so a
text with another number of fields is refused. -/
theorem encode_decode_inverse :
    (∀ v : Value, v.Fits → decode v.type v.encode = .ok v) ∧
    (∀ ty field v, decode ty field = .ok v →
      v.type = ty ∧ decode ty v.encode = .ok v ∧
      (decode ty v.encode).map encode = .ok v.encode ∧
      (ty.isCollection = false → v.encode = field)) ∧
    ∀ ty width field header items count, ty.itemWidth? = some width →
      Bytes.splitOn Separator.item.byte field = header :: items →
      Field.decodeCount header = .ok count →
      (UInt64.ofNat count * UInt64.ofNat width).toNat = count * width ∧
      (items.length ≠ count * width →
        decode ty field = .error (.malformed (.itemCount count width items.length))) := by
  refine ⟨decode_encode, fun ty field v h => ?_, fun ty width field header items count hty hsplit
    hcount => ⟨Field.toNat_count_mul hcount (AttributeType.itemWidth?_le hty), fun hlength => ?_⟩⟩
  · obtain ⟨rfl, hspelled⟩ := decode_eq_ok_iff.1 h
    have hnormal : decode v.type v.encode = .ok v := v.decode_encode hspelled.fits
    exact ⟨rfl, hnormal, congrArg (Except.map encode) hnormal, hspelled.eq_encode⟩
  · have hitems : Field.decodeItems width field =
        .error (.malformed (.itemCount count width items.length)) := by
      rw [Field.decodeItems_of_splitOn hsplit hcount, if_neg hlength]
      rfl
    exact decode_of_decodeItems hty hitems

/-- A multimap whose pairs are not spelled in the order in which they are written, and the greatest
count without any items. -/
theorem encode_decode_inverse_unsorted :
    let v : Value := .collection (.longMultimap (((Multimap.empty.put 7 1).put (-5) 3).put 7 2))
    let field := Field.encodePairs Field.encodeInt64 [(7, 1), (-5, 3), (7, 2)]
    let header := Field.encodeCount Field.maxCount
    (v.Fits ∧ decode v.type v.encode = .ok v) ∧
    (v.encode ≠ field ∧ decode .longMultimap field = .ok v ∧
      (decode .longMultimap v.encode).map encode = .ok v.encode) ∧
    decode .longMap header = .error (.malformed (.itemCount Field.maxCount 2 0)) := by
  intro v field header
  obtain ⟨hback, hread, hrefused⟩ := encode_decode_inverse
  have hfits : v.Fits := (by decide : 3 ≤ Field.maxCount)
  have hne : v.encode ≠ field := by decide +kernel
  have hfield : decode .longMultimap field = .ok v := by decide +kernel
  have hsplit : Bytes.splitOn Separator.item.byte header = [header] := by decide +kernel
  have hcount : Field.decodeCount header = .ok Field.maxCount := by decide +kernel
  have hempty := hrefused .longMap 2 header header [] Field.maxCount rfl hsplit hcount
  exact ⟨⟨hfits, hback v hfits⟩, ⟨hne, hfield, (hread .longMultimap field v hfield).2.2.1⟩,
    hempty.2 (by decide)⟩

end Value

end ChunkCache
