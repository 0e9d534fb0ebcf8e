import Mathlib.Data.List.Nodup
import ChunkCache.Proofs.Bytes
import ChunkCache.RecordStore

namespace ChunkCache

namespace SortedMap

variable {κ β : Type} [Ord κ] [Std.TransOrd κ] [Std.LawfulEqOrd κ]
variable {k : κ} {v : β} {pairs : List (κ × β)}

theorem get?_insertMany_of_not_mem (m : SortedMap κ β) (h : k ∉ pairs.map Prod.fst) :
    (m.insertMany pairs).get? k = m.get? k := by
  induction pairs generalizing m with
  | nil => rfl
  | cons e pairs ih =>
      obtain ⟨he, hpairs⟩ := List.ne_and_not_mem_of_not_mem_cons h
      exact (ih (m.insert e.1 e.2) hpairs).trans (get?_insert_of_ne m he e.2)

theorem get?_insertMany_of_mem (m : SortedMap κ β) (hnodup : (pairs.map Prod.fst).Nodup)
    (h : (k, v) ∈ pairs) : (m.insertMany pairs).get? k = some v := by
  induction pairs generalizing m with
  | nil => exact absurd h List.not_mem_nil
  | cons e pairs ih =>
      obtain ⟨he, hpairs⟩ := List.nodup_cons.1 hnodup
      rcases List.mem_cons.1 h with rfl | h
      · exact (get?_insertMany_of_not_mem (m.insert k v) he).trans (get?_insert_self m k v)
      · exact ih (m.insert e.1 e.2) hpairs h

end SortedMap

namespace RecordStore

variable {s : RecordStore} {records : List (Bytes × Bytes)} {key record : Bytes}

/-- No key and no record holds the separator of a batch. -/
def Separable (records : List (Bytes × Bytes)) : Prop :=
  ∀ e ∈ records, Separator.record.byte ∉ e.1 ∧ Separator.record.byte ∉ e.2

theorem pairs?_flatMap (records : List (Bytes × Bytes)) :
    pairs? (records.flatMap fun e => [e.1, e.2]) = some records := by
  induction records with
  | nil => rfl
  | cons e records ih =>
      change (pairs? (records.flatMap fun e => [e.1, e.2])).map ((e.1, e.2) :: ·) = _
      rw [ih]
      rfl

theorem ofBatch?_batchOf (h : Separable records) : ofBatch? (batchOf records) = some records := by
  cases records with
  | nil => rfl
  | cons e records =>
      have hpieces : ∀ piece ∈ (e :: records).flatMap fun e => [e.1, e.2],
          Separator.record.byte ∉ piece := by
        intro piece hpiece
        obtain ⟨e', he', hpiece⟩ := List.mem_flatMap.1 hpiece
        rcases List.mem_cons.1 hpiece with rfl | hpiece
        · exact (h e' he').1
        · rw [List.mem_singleton.1 hpiece]
          exact (h e' he').2
      have hsplit := Bytes.splitOn_joinWith (List.cons_ne_nil _ _) hpieces
      have hne : batchOf (e :: records) ≠ [] :=
        List.append_ne_nil_of_right_ne_nil _ (List.cons_ne_nil _ _)
      rw [ofBatch?, if_neg fun hempty => hne (List.isEmpty_iff.1 hempty)]
      exact (congrArg pairs? hsplit).trans (pairs?_flatMap (e :: records))

theorem write_batchOf (hstore : s.outage = none) (h : Separable records) :
    s.write (batchOf records) = (true, { s with records := s.records.insertMany records }) := by
  rw [write, hstore, ofBatch?_batchOf h]

end RecordStore

end ChunkCache
