import ChunkCache.SortedMap

namespace ChunkCache

def pairCount : List (Int64 × List Int64) → Nat
  | [] => 0
  | (_, values) :: rest => values.length + pairCount rest

/-- The values of every key, newest first. A key without values is not kept. -/
structure Multimap where
  entries : SortedMap Int64 (List Int64)
  pairs : Nat
  filled : ∀ e ∈ entries.entries, e.2 ≠ []
  counted : pairs = pairCount entries.entries
  deriving DecidableEq

namespace Multimap

open SortedMap

section Count

variable {k : Int64} {l : List (Int64 × List Int64)}

theorem compare_ne_of_head {e : Int64 × List Int64} (h : compare k e.1 ≠ .gt)
    (hl : (e :: l).Pairwise fun a b => compare a.1 b.1 = .lt) :
    ∀ e' ∈ l, compare k e'.1 ≠ .eq := by
  intro e' he' heq
  have hlt := (List.pairwise_cons.1 hl).1 e' he'
  rw [Std.LawfulEqCmp.eq_of_compare heq] at h
  exact h (Std.OrientedCmp.gt_of_lt hlt)

theorem pairCount_place (k : Int64) (values : List Int64)
    (hl : l.Pairwise fun a b => compare a.1 b.1 = .lt) :
    pairCount (place k values l) + ((find k l).getD []).length =
      pairCount l + values.length := by
  induction l with
  | nil => simp [place, find, pairCount]
  | cons head rest ih =>
    simp only [place, find]
    cases hk : compare k head.1 with
    | lt =>
      have hnone : find k rest = none := find_eq_none (compare_ne_of_head (by simp [hk]) hl)
      simp [hnone, pairCount]
      omega
    | eq =>
      simp [pairCount]
      omega
    | gt =>
      have htail := ih hl.of_cons
      simp only [pairCount] at htail ⊢
      simp
      omega

theorem pairCount_drop (k : Int64) (hl : l.Pairwise fun a b => compare a.1 b.1 = .lt) :
    pairCount (drop k l) + ((find k l).getD []).length = pairCount l := by
  induction l with
  | nil => simp [drop, find, pairCount]
  | cons head rest ih =>
    simp only [find]
    by_cases hk : compare k head.1 = .eq
    · have hrest : drop k rest = rest := drop_eq_self (compare_ne_of_head (by simp [hk]) hl)
      have hhead : drop k (head :: rest) = drop k rest :=
        List.filter_cons_of_neg (by simp only [hk, decide_true, Bool.not_true]; decide)
      simp [hhead, hrest, hk, pairCount]
      omega
    · have hhead : drop k (head :: rest) = head :: drop k rest :=
        List.filter_cons_of_pos (by simp only [hk, decide_false, Bool.not_false])
      have htail := ih hl.of_cons
      simp only [hhead, hk, if_false, pairCount] at htail ⊢
      omega

end Count

def empty : Multimap := ⟨.empty, 0, by simp [SortedMap.empty], rfl⟩

instance : Inhabited Multimap := ⟨empty⟩

/-- The values of `key`, newest first. -/
def get (m : Multimap) (key : Int64) : List Int64 := (m.entries.get? key).getD []

def put (m : Multimap) (key value : Int64) : Multimap where
  entries := m.entries.insert key (value :: m.get key)
  pairs := m.pairs + 1
  filled e he := by
    rcases mem_place he with rfl | he
    · exact List.cons_ne_nil _ _
    · exact m.filled e he
  counted := by
    have hplace := pairCount_place key (value :: m.get key) m.entries.ascending
    rw [m.counted]
    change _ = pairCount (place key _ _)
    change _ + (m.get key).length = _ at hplace
    rw [List.length_cons] at hplace
    omega

/-- Let `left` be the values of a key that has had values. -/
def leave (m : Multimap) (key : Int64) (left : List Int64) : SortedMap Int64 (List Int64) :=
  if left.isEmpty then m.entries.erase key else m.entries.insert key left

/-- Remove the newest occurrence of `value` under `key`, if there is one. -/
def delete (m : Multimap) (key value : Int64) : Multimap :=
  if h : value ∈ m.get key then
    { entries := m.leave key ((m.get key).erase value)
      pairs := m.pairs - 1
      filled := by
        intro e he
        unfold leave at he
        split at he
        · exact m.filled e (List.mem_filter.1 he).1
        · rcases mem_place he with rfl | he
          · exact fun hnil => ‹¬_› (List.isEmpty_iff.2 hnil)
          · exact m.filled e he
      counted := by
        have hlength := List.length_erase_of_mem h
        have hpos := List.length_pos_of_mem h
        rw [m.counted, leave]
        split
        · rename_i hleft
          have hdrop := pairCount_drop key m.entries.ascending
          change _ + (m.get key).length = _ at hdrop
          rw [List.isEmpty_iff.1 hleft, List.length_nil] at hlength
          change _ = pairCount (drop key _)
          omega
        · have hplace := pairCount_place key ((m.get key).erase value) m.entries.ascending
          change _ + (m.get key).length = _ at hplace
          change _ = pairCount (place key _ _)
          omega }
  else m

def contains (m : Multimap) (key value : Int64) : Bool := value ∈ m.get key

/-- Whether there is an occurrence of `value` under `key`, and what is left without the newest
one. -/
def remove (m : Multimap) (key value : Int64) : Bool × Multimap :=
  (m.contains key value, m.delete key value)

def size (m : Multimap) : Nat := m.pairs

def isEmpty (m : Multimap) : Bool := m.pairs = 0

def keyCount (m : Multimap) : Nat := m.entries.size

/-- The keys in ascending order, each with its values, newest first. -/
def toList (m : Multimap) : List (Int64 × List Int64) := m.entries.entries

/-- All pairs by ascending key, the oldest value of a key first: putting them in this order builds
the same multimap. -/
def history (m : Multimap) : List (Int64 × Int64) :=
  m.toList.flatMap fun (key, values) => values.reverse.map (key, ·)

def ofPairs (pairs : List (Int64 × Int64)) : Multimap :=
  pairs.foldl (fun m e => m.put e.1 e.2) empty

theorem get_put_self (m : Multimap) (key value : Int64) :
    (m.put key value).get key = value :: m.get key := by
  simp [put, get]

theorem get_put_of_ne (m : Multimap) {key other : Int64} (h : other ≠ key) (value : Int64) :
    (m.put key value).get other = m.get other := by
  simp [put, get, SortedMap.get?_insert_of_ne _ h]

theorem get?_leave_self (m : Multimap) (key : Int64) (left : List Int64) :
    ((m.leave key left).get? key).getD [] = left := by
  unfold leave
  split
  · simp [List.isEmpty_iff.1 ‹_›]
  · simp

theorem get?_leave_of_ne (m : Multimap) {key other : Int64} (h : other ≠ key)
    (left : List Int64) : (m.leave key left).get? other = m.entries.get? other := by
  unfold leave
  split
  · exact SortedMap.get?_erase_of_ne _ h
  · exact SortedMap.get?_insert_of_ne _ h _

theorem get_delete_self (m : Multimap) (key value : Int64) :
    (m.delete key value).get key = (m.get key).erase value := by
  unfold delete
  split
  · exact get?_leave_self ..
  · rw [List.erase_of_not_mem ‹_›]

theorem get_delete_of_ne (m : Multimap) {key other : Int64} (h : other ≠ key) (value : Int64) :
    (m.delete key value).get other = m.get other := by
  unfold delete
  split
  · exact congrArg (Option.getD · []) (m.get?_leave_of_ne h _)
  · rfl

end Multimap

end ChunkCache
