namespace ChunkCache

/-- A finite map, held as its entries in ascending key order. The order is part of the type, so two
maps with the same bindings are equal. -/
structure SortedMap (κ β : Type) [Ord κ] where
  entries : List (κ × β) := []
  ascending : entries.Pairwise (fun a b => compare a.1 b.1 = .lt) := by exact .nil

namespace SortedMap

variable {κ β : Type} [Ord κ]

def empty : SortedMap κ β := {}

instance : Inhabited (SortedMap κ β) := ⟨empty⟩

def size (m : SortedMap κ β) : Nat := m.entries.length

def isEmpty (m : SortedMap κ β) : Bool := m.entries.isEmpty

def find (k : κ) : List (κ × β) → Option β
  | [] => none
  | (k', v') :: rest => if compare k k' = .eq then some v' else find k rest

/-- The entries with `k` bound to `v`. -/
def place (k : κ) (v : β) : List (κ × β) → List (κ × β)
  | [] => [(k, v)]
  | (k', v') :: rest =>
    match compare k k' with
    | .lt => (k, v) :: (k', v') :: rest
    | .eq => (k, v) :: rest
    | .gt => (k', v') :: place k v rest

def drop (k : κ) (entries : List (κ × β)) : List (κ × β) :=
  entries.filter fun e => !decide (compare k e.1 = .eq)

def get? (m : SortedMap κ β) (k : κ) : Option β := find k m.entries

def contains (m : SortedMap κ β) (k : κ) : Bool := (m.get? k).isSome

theorem fst_of_mem_place {k : κ} {v : β} {l : List (κ × β)} {e : κ × β} (h : e ∈ place k v l) :
    e.1 = k ∨ e ∈ l := by
  induction l with
  | nil => simp_all [place]
  | cons head rest ih =>
    simp only [place] at h
    split at h
    · rcases List.mem_cons.1 h with rfl | h
      · exact .inl rfl
      · exact .inr h
    · rcases List.mem_cons.1 h with rfl | h
      · exact .inl rfl
      · exact .inr (List.mem_cons_of_mem _ h)
    · rcases List.mem_cons.1 h with rfl | h
      · exact .inr List.mem_cons_self
      · exact (ih h).imp_right (List.mem_cons_of_mem _)

theorem place_ascending [Std.TransOrd κ] [Std.LawfulEqOrd κ] (k : κ) (v : β) {l : List (κ × β)}
    (h : l.Pairwise (fun a b => compare a.1 b.1 = .lt)) :
    (place k v l).Pairwise (fun a b => compare a.1 b.1 = .lt) := by
  induction l with
  | nil => simp [place]
  | cons head rest ih =>
    obtain ⟨hhead, hrest⟩ := List.pairwise_cons.1 h
    simp only [place]
    split
    · rename_i hk
      refine List.pairwise_cons.2 ⟨fun e he => ?_, h⟩
      rcases List.mem_cons.1 he with rfl | he
      · exact hk
      · exact Std.TransCmp.lt_trans hk (hhead e he)
    · rename_i hk
      have hk := Std.LawfulEqCmp.eq_of_compare hk
      exact List.pairwise_cons.2 ⟨fun e he => hk ▸ hhead e he, hrest⟩
    · rename_i hk
      refine List.pairwise_cons.2 ⟨fun e he => ?_, ih hrest⟩
      rcases fst_of_mem_place he with rfl | he
      · exact Std.OrientedCmp.lt_of_gt hk
      · exact hhead e he

theorem find_place_self [Std.ReflOrd κ] (k : κ) (v : β) (l : List (κ × β)) :
    find k (place k v l) = some v := by
  induction l with
  | nil => simp [place, find]
  | cons head rest ih =>
    simp only [place]
    split
    · simp [find]
    · simp [find]
    · rename_i hk
      simp [find, hk, ih]

theorem find_place_of_ne [Std.LawfulEqOrd κ] {k k' : κ} (hne : k' ≠ k) (v : β) (l : List (κ × β)) :
    find k' (place k v l) = find k' l := by
  have hcmp : compare k' k ≠ .eq := fun h => hne (Std.LawfulEqCmp.eq_of_compare h)
  induction l with
  | nil => simp [place, find, hcmp]
  | cons head rest ih =>
    simp only [place]
    split
    · simp [find, hcmp]
    · rename_i hk
      have hcmp' : compare k' head.1 ≠ .eq := Std.LawfulEqCmp.eq_of_compare hk ▸ hcmp
      simp [find, hcmp, hcmp']
    · simp only [find, ih]

theorem find_drop_self (k : κ) (l : List (κ × β)) : find k (drop k l) = none := by
  induction l with
  | nil => rfl
  | cons head rest ih =>
    simp only [drop] at ih ⊢
    by_cases hk : compare k head.1 = .eq
    · simp [hk, ih]
    · simp [hk, find, ih]

theorem find_drop_of_ne [Std.LawfulEqOrd κ] {k k' : κ} (hne : k' ≠ k) (l : List (κ × β)) :
    find k' (drop k l) = find k' l := by
  induction l with
  | nil => rfl
  | cons head rest ih =>
    simp only [drop] at ih ⊢
    by_cases hk : compare k head.1 = .eq
    · have hk' : compare k' head.1 ≠ .eq := fun h =>
        hne ((Std.LawfulEqCmp.eq_of_compare h).trans (Std.LawfulEqCmp.eq_of_compare hk).symm)
      simp [hk, find, hk', ih]
    · simp [hk, find, ih]

theorem mem_place {k : κ} {v : β} {l : List (κ × β)} {e : κ × β} (h : e ∈ place k v l) :
    e = (k, v) ∨ e ∈ l := by
  induction l with
  | nil => exact .inl (List.mem_singleton.1 h)
  | cons head rest ih =>
    simp only [place] at h
    split at h
    · exact List.mem_cons.1 h
    · exact (List.mem_cons.1 h).imp_right (List.mem_cons_of_mem _)
    · rcases List.mem_cons.1 h with rfl | h
      · exact .inr List.mem_cons_self
      · exact (ih h).imp_right (List.mem_cons_of_mem _)

theorem find_eq_none {k : κ} {l : List (κ × β)} (h : ∀ e ∈ l, compare k e.1 ≠ .eq) :
    find k l = none := by
  induction l with
  | nil => rfl
  | cons head rest ih =>
    rw [find, if_neg (h head List.mem_cons_self)]
    exact ih fun e he => h e (List.mem_cons_of_mem _ he)

theorem drop_eq_self {k : κ} {l : List (κ × β)} (h : ∀ e ∈ l, compare k e.1 ≠ .eq) :
    drop k l = l :=
  List.filter_eq_self.2 fun e he => by simp [h e he]

def erase (m : SortedMap κ β) (k : κ) : SortedMap κ β where
  entries := drop k m.entries
  ascending := m.ascending.filter _

@[simp]
theorem get?_erase_self (m : SortedMap κ β) (k : κ) : (m.erase k).get? k = none :=
  find_drop_self k m.entries

theorem get?_erase_of_ne [Std.LawfulEqOrd κ] (m : SortedMap κ β) {k k' : κ} (h : k' ≠ k) :
    (m.erase k).get? k' = m.get? k' :=
  find_drop_of_ne h m.entries

section Updates

variable [Std.TransOrd κ] [Std.LawfulEqOrd κ]

/-- Bind `k` to `v`, whatever it was bound to. -/
def insert (m : SortedMap κ β) (k : κ) (v : β) : SortedMap κ β where
  entries := place k v m.entries
  ascending := place_ascending k v m.ascending

/-- Bind the pairs one after the other; of two pairs with one key the later one wins. -/
def insertMany (m : SortedMap κ β) (pairs : List (κ × β)) : SortedMap κ β :=
  pairs.foldl (fun m e => m.insert e.1 e.2) m

@[simp]
theorem get?_insert_self (m : SortedMap κ β) (k : κ) (v : β) : (m.insert k v).get? k = some v :=
  find_place_self k v m.entries

theorem get?_insert_of_ne (m : SortedMap κ β) {k k' : κ} (h : k' ≠ k) (v : β) :
    (m.insert k v).get? k' = m.get? k' :=
  find_place_of_ne h v m.entries

end Updates

instance [DecidableEq κ] [DecidableEq β] : DecidableEq (SortedMap κ β) := fun m n =>
  if h : m.entries = n.entries then
    isTrue (by cases m; cases n; simp_all)
  else isFalse fun e => h (e ▸ rfl)

end SortedMap

end ChunkCache
