import ChunkCache.Proofs.Merge
import ChunkCache.Proofs.Timeline

namespace ChunkCache.Multimap

open ChunkCache.Field

/-- The values of a key in a ledger of pairs. -/
def valuesOf (pairs : List (Int64 × Int64)) (key : Int64) : List Int64 :=
  (pairs.filter (·.1 = key)).map Prod.snd

/-- The keys that a ledger mentions. -/
def keysOf (pairs : List (Int64 × Int64)) : Finset Int64 := (pairs.map Prod.fst).toFinset

/-- The multimap that a field spells, if it spells one. -/
def read? (field : Bytes) : Option Multimap :=
  match Value.decode .longMultimap field with
  | .ok (.collection (.longMultimap m)) => some m
  | _ => none

/-- The field spells these pairs one after the other. -/
def Spells (field : Bytes) (pairs : List (Int64 × Int64)) : Prop :=
  pairs.length ≤ maxCount ∧ field = encodePairs encodeInt64 pairs

/-- What callers do to multimaps, which are numbered in the order in which they come about. -/
inductive Action where
  | create
  | clone (i : Nat)
  | decode (field : Bytes)
  | put (i : Nat) (key value : Int64)
  | remove (i : Nat) (key value : Int64)

namespace Action

/-- The multimaps after an action. A field that is no multimap and a number that no multimap has
leave them. -/
def on : Action → List Multimap → List Multimap
  | create, ms => ms ++ [empty]
  | clone i, ms => ms ++ ms[i]?.toList
  | decode field, ms => ms ++ (read? field).toList
  | put i key value, ms => ms.modify i (·.put key value)
  | remove i key value, ms => ms.modify i fun m => (m.remove key value).2

/-- What an action makes of the ledgers. The last pair of a field is the newest. -/
noncomputable def onLedgers : Action → List (List (Int64 × Int64)) → List (List (Int64 × Int64))
  | create, ledgers => ledgers ++ [[]]
  | clone i, ledgers => ledgers ++ ledgers[i]?.toList
  | decode field, ledgers => ledgers ++ ((field.spelled? Spells).map List.reverse).toList
  | put i key value, ledgers => ledgers.modify i ((key, value) :: ·)
  | remove i key value, ledgers => ledgers.modify i (·.erase (key, value))

end Action

/-- The multimaps that some actions leave, the first one first. -/
def run (actions : List Action) : List Multimap :=
  actions.foldl (fun ms action => action.on ms) []

/-- The ledgers that some actions leave. -/
noncomputable def ledgersAfter (actions : List Action) : List (List (Int64 × Int64)) :=
  actions.foldl (fun ledgers action => action.onLedgers ledgers) []

/-- A multimap answers as a ledger does. -/
structure Refines (m : Multimap) (pairs : List (Int64 × Int64)) : Prop where
  get_eq : ∀ key, m.get key = valuesOf pairs key
  remove_iff : ∀ key value, (m.remove key value).1 = true ↔ (key, value) ∈ pairs
  size_remove : ∀ key value, (key, value) ∈ pairs → (m.remove key value).2.size + 1 = m.size
  size_eq : m.size = pairs.length
  isEmpty_iff : m.isEmpty = true ↔ pairs = []
  toList_eq : m.toList = ((keysOf pairs).sort (· ≤ ·)).map fun key => (key, valuesOf pairs key)
  keyCount_eq : m.keyCount = (keysOf pairs).card

section Ledgers

variable {pairs : List (Int64 × Int64)} {key other value : Int64}

theorem valuesOf_cons_self (pairs : List (Int64 × Int64)) (key value : Int64) :
    valuesOf ((key, value) :: pairs) key = value :: valuesOf pairs key := by
  rw [valuesOf, List.filter_cons_of_pos (by simp)]
  rfl

theorem valuesOf_cons_of_ne (h : other ≠ key) :
    valuesOf ((key, value) :: pairs) other = valuesOf pairs other := by
  rw [valuesOf, List.filter_cons_of_neg (by simpa using h.symm)]
  rfl

theorem mem_valuesOf : value ∈ valuesOf pairs key ↔ (key, value) ∈ pairs := by
  simp [valuesOf]

theorem mem_keysOf_iff : key ∈ keysOf pairs ↔ valuesOf pairs key ≠ [] := by
  rw [keysOf, List.mem_toFinset, List.mem_map]
  constructor
  · rintro ⟨⟨_, value⟩, hmem, rfl⟩
    exact List.ne_nil_of_mem (mem_valuesOf.2 hmem)
  · intro h
    obtain ⟨value, hmem⟩ := List.exists_mem_of_ne_nil _ h
    exact ⟨(key, value), mem_valuesOf.1 hmem, rfl⟩

theorem valuesOf_erase_self (pairs : List (Int64 × Int64)) (key value : Int64) :
    valuesOf (pairs.erase (key, value)) key = (valuesOf pairs key).erase value := by
  induction pairs with
  | nil => rfl
  | cons e pairs ih =>
      obtain ⟨k, v⟩ := e
      by_cases hk : key = k
      · subst hk
        rw [valuesOf_cons_self]
        by_cases hv : v = value
        · rw [hv, List.erase_cons_head, List.erase_cons_head]
        · rw [List.erase_cons_tail (by simpa using hv), List.erase_cons_tail (by simpa using hv),
            valuesOf_cons_self, ih]
      · have hne : k ≠ key := fun h => hk h.symm
        rw [List.erase_cons_tail (by simp [hne]), valuesOf_cons_of_ne hk, ih,
          valuesOf_cons_of_ne hk]

theorem valuesOf_erase_of_ne (h : other ≠ key) :
    valuesOf (pairs.erase (key, value)) other = valuesOf pairs other := by
  induction pairs with
  | nil => rfl
  | cons e pairs ih =>
      by_cases he : e = (key, value)
      · rw [he, List.erase_cons_head, valuesOf_cons_of_ne h]
      · rw [List.erase_cons_tail (by simpa using he)]
        obtain ⟨k, v⟩ := e
        by_cases hk : other = k
        · subst hk
          rw [valuesOf_cons_self, valuesOf_cons_self, ih]
        · rw [valuesOf_cons_of_ne hk, valuesOf_cons_of_ne hk, ih]

end Ledgers

/-- The invariant: the lists of a multimap are those of a ledger, and its counter tells the number
of pairs. -/
structure Keeps (m : Multimap) (pairs : List (Int64 × Int64)) : Prop where
  get_eq : ∀ key, m.get key = valuesOf pairs key
  size_eq : m.size = pairs.length

namespace Keeps

variable {m : Multimap} {pairs : List (Int64 × Int64)}

theorem empty : Keeps Multimap.empty [] := ⟨fun _ => rfl, rfl⟩

theorem put (h : m.Keeps pairs) (key value : Int64) :
    (m.put key value).Keeps ((key, value) :: pairs) where
  get_eq other := by
    by_cases hother : other = key
    · rw [hother, get_put_self, valuesOf_cons_self, h.get_eq]
    · rw [get_put_of_ne m hother, valuesOf_cons_of_ne hother, h.get_eq]
  size_eq := congrArg (· + 1) h.size_eq

theorem ofPairs (pairs : List (Int64 × Int64)) : (Multimap.ofPairs pairs).Keeps pairs.reverse := by
  have hfold : ∀ (m : Multimap) (ledger : List (Int64 × Int64)), m.Keeps ledger →
      (pairs.foldl (fun m e => m.put e.1 e.2) m).Keeps (pairs.reverse ++ ledger) := by
    induction pairs with
    | nil => exact fun m ledger h => h
    | cons e pairs ih =>
        intro m ledger h
        rw [List.reverse_cons, List.append_assoc]
        exact ih _ _ (h.put e.1 e.2)
  have hkeeps := hfold Multimap.empty [] empty
  rwa [List.append_nil] at hkeeps

theorem mem_get_iff (h : m.Keeps pairs) {key value : Int64} :
    value ∈ m.get key ↔ (key, value) ∈ pairs := by
  rw [h.get_eq, mem_valuesOf]

/-- A pair that is removed was counted. -/
theorem size_delete (h : m.Keeps pairs) {key value : Int64} (hmem : (key, value) ∈ pairs) :
    (m.delete key value).size + 1 = m.size := by
  have hsize : (m.delete key value).size = m.size - 1 := by
    rw [delete, dif_pos (h.mem_get_iff.2 hmem)]
    rfl
  have hpos : 0 < m.size := h.size_eq ▸ List.length_pos_of_mem hmem
  omega

theorem delete (h : m.Keeps pairs) (key value : Int64) :
    (m.delete key value).Keeps (pairs.erase (key, value)) where
  get_eq other := by
    by_cases hother : other = key
    · rw [hother, get_delete_self, valuesOf_erase_self, h.get_eq]
    · rw [get_delete_of_ne m hother, valuesOf_erase_of_ne hother, h.get_eq]
  size_eq := by
    by_cases hmem : (key, value) ∈ pairs
    · have hsize := h.size_delete hmem
      have hlength := List.length_erase_add_one hmem
      have hcounted := h.size_eq
      omega
    · rw [Multimap.delete, dif_neg (mt h.mem_get_iff.1 hmem), List.erase_of_not_mem hmem, h.size_eq]

end Keeps

section Entries

variable {m n : Multimap} {key : Int64}

/-- No key is kept without values. -/
theorem get?_entries (m : Multimap) (key : Int64) :
    m.entries.get? key = if m.get key = [] then none else some (m.get key) := by
  cases hkey : m.entries.get? key with
  | none =>
      have hget : m.get key = [] := by rw [get, hkey]; rfl
      rw [if_pos hget]
  | some values =>
      have hget : m.get key = values := by rw [get, hkey]; rfl
      rw [hget, if_neg (m.filled _ (SortedMap.mem_entries_iff.2 hkey))]

theorem ext_get (h : ∀ key, m.get key = n.get key) : m = n := by
  apply ext_entries
  apply SortedMap.ext_get?
  intro key
  rw [get?_entries, get?_entries, h]

theorem mem_keys_iff : key ∈ m.toList.map Prod.fst ↔ m.get key ≠ [] := by
  constructor
  · intro h
    obtain ⟨e, he, rfl⟩ := List.mem_map.1 h
    have hget := SortedMap.mem_entries_iff.1 he
    rw [get?_entries] at hget
    split at hget
    · cases hget
    · assumption
  · intro h
    have hget := m.get?_entries key
    rw [if_neg h] at hget
    exact List.mem_map.2 ⟨_, SortedMap.mem_entries_iff.2 hget, rfl⟩

theorem toList_eq_map (m : Multimap) :
    m.toList = (m.toList.map Prod.fst).map fun key => (key, m.get key) := by
  rw [List.map_map]
  refine (List.map_id _).symm.trans (List.map_congr_left ?_)
  intro e he
  have hget : m.get e.1 = e.2 := by
    rw [get, SortedMap.mem_entries_iff.1 he]
    rfl
  change e = (e.1, m.get e.1)
  rw [hget]

theorem ascending_keys (m : Multimap) : (m.toList.map Prod.fst).Pairwise (· < ·) :=
  List.pairwise_map.2 (m.entries.ascending.imp fun h => Std.compare_eq_lt.1 h)

end Entries

theorem read?_eq (field : Bytes) : read? field = (field.spelled? Spells).map ofPairs := by
  have hdecode : Value.decode .longMultimap field = (decodePairs decodeInt64 field).map fun pairs =>
      .collection (.longMultimap (ofPairs pairs)) := rfl
  unfold read?
  rw [hdecode, Bytes.spelled?_eq_toOption fun _ => canonical_int64.decodePairs_eq_ok_iff]
  cases decodePairs decodeInt64 field with
  | error e => rfl
  | ok pairs => rfl

/-- What is kept is answered. -/
theorem Keeps.refines {m : Multimap} {pairs : List (Int64 × Int64)} (h : m.Keeps pairs) :
    m.Refines pairs := by
  have hkeys : (keysOf pairs).sort (· ≤ ·) = m.toList.map Prod.fst := by
    have hascending := m.ascending_keys
    apply Timeline.sort_eq (hascending.imp Int64.ne_of_lt) (hascending.imp Int64.le_of_lt)
    intro key
    rw [mem_keys_iff, mem_keysOf_iff, h.get_eq]
  refine ⟨h.get_eq, ?_, fun key value => h.size_delete, h.size_eq, ?_, ?_, ?_⟩
  · intro key value
    rw [← h.mem_get_iff, remove, contains, decide_eq_true_eq]
  · rw [isEmpty, decide_eq_true_eq, ← List.length_eq_zero_iff, ← h.size_eq]
    rfl
  · rw [hkeys, m.toList_eq_map]
    simp only [h.get_eq, List.map_map, Function.comp_def]
  · rw [← Finset.length_sort (· ≤ ·), hkeys, List.length_map]
    rfl

section Pools

variable {α β : Type} {R : α → β → Prop} {l : List α} {l' : List β}

theorem forall₂_modify (h : List.Forall₂ R l l') {f : α → α} {g : β → β}
    (hfg : ∀ a b, R a b → R (f a) (g b)) (i : Nat) :
    List.Forall₂ R (l.modify i f) (l'.modify i g) := by
  induction h generalizing i with
  | nil => cases i <;> exact .nil
  | cons h htail ih =>
      cases i with
      | zero => exact .cons (hfg _ _ h) htail
      | succ i => exact .cons h (ih i)

theorem forall₂_getElem? (h : List.Forall₂ R l l') (i : Nat) :
    List.Forall₂ R l[i]?.toList l'[i]?.toList := by
  induction h generalizing i with
  | nil => exact .nil
  | cons h _ ih =>
      cases i with
      | zero => exact .cons h .nil
      | succ i => exact ih i

end Pools

/-- What one action preserves. -/
theorem Action.keeps_on {ms : List Multimap} {ledgers : List (List (Int64 × Int64))}
    (h : List.Forall₂ Keeps ms ledgers) (action : Action) :
    List.Forall₂ Keeps (action.on ms) (action.onLedgers ledgers) := by
  cases action with
  | create => exact List.rel_append h (.cons .empty .nil)
  | clone i => exact List.rel_append h (forall₂_getElem? h i)
  | decode field =>
      rw [on, onLedgers, read?_eq]
      refine List.rel_append h ?_
      cases field.spelled? Spells with
      | none => exact .nil
      | some pairs => exact .cons (.ofPairs pairs) .nil
  | put i key value => exact forall₂_modify h (fun m pairs hkeeps => hkeeps.put key value) i
  | remove i key value => exact forall₂_modify h (fun m pairs hkeeps => hkeeps.delete key value) i

/-- What a run preserves. -/
theorem keeps_run (actions : List Action) :
    List.Forall₂ Keeps (run actions) (ledgersAfter actions) := by
  have hfold : ∀ ms ledgers, List.Forall₂ Keeps ms ledgers →
      List.Forall₂ Keeps (actions.foldl (fun ms action => action.on ms) ms)
        (actions.foldl (fun ledgers action => action.onLedgers ledgers) ledgers) := by
    induction actions with
    | nil => exact fun ms ledgers h => h
    | cons action actions ih => exact fun ms ledgers h => ih _ _ (action.keeps_on h)
  exact hfold [] [] .nil

/-- Whatever was done to multimaps, each of them answers as the ledger of the pairs that are left in
it. A field that is decoded brings a ledger of the pairs that it spells, and there is none if it
spells no pairs. Two multimaps are equal exactly if they have the same values under every key. -/
theorem refines_ledgers (actions : List Action) :
    List.Forall₂ Refines (run actions) (ledgersAfter actions) ∧
      (∀ field pairs, Spells field pairs ↔ field.spelled? Spells = some pairs) ∧
      ∀ m n : Multimap, m = n ↔ ∀ key, m.get key = n.get key := by
  refine ⟨(keeps_run actions).imp fun _ _ h => h.refines, fun field pairs => ?_,
    fun m n => ⟨?_, ext_get⟩⟩
  · exact (Bytes.spelled?_eq_some_iff fun _ => canonical_int64.decodePairs_eq_ok_iff).symm
  · rintro rfl key
    rfl

end ChunkCache.Multimap
