import Mathlib.Data.List.Nodup
import Mathlib.Data.List.Perm.Subperm
import ChunkCache.SlotQueue

namespace ChunkCache

variable {α : Type}

/-- A walk from `start` along `next` meets exactly the members of the list, in their order, and
then ends. -/
def Chain (next : α → Option α) : Option α → List α → Prop
  | start, [] => start = none
  | start, i :: l => start = some i ∧ Chain next (next i) l

namespace Chain

variable {next next' : α → Option α} {start : Option α} {l l' : List α}

theorem unique (h : Chain next start l) (h' : Chain next start l') : l = l' := by
  induction l generalizing start l' with
  | nil =>
      cases l' with
      | nil => rfl
      | cons i l' => simp_all [Chain]
  | cons i l ih =>
      cases l' with
      | nil => simp_all [Chain]
      | cons j l' =>
          obtain ⟨rfl, h⟩ := h
          obtain ⟨hj, h'⟩ := h'
          obtain rfl := Option.some.inj hj
          rw [ih h h']

/-- Only the links of the members matter. -/
theorem congr (h : Chain next start l) (hnext : ∀ i ∈ l, next' i = next i) :
    Chain next' start l := by
  induction l generalizing start with
  | nil => exact h
  | cons i l ih =>
      refine ⟨h.1, ?_⟩
      rw [hnext i (by simp)]
      exact ih h.2 fun j hj => hnext j (by simp [hj])

/-- Every member is the start of the walk over the members after it. -/
theorem tail {xs ys : List α} {i : α} (h : Chain next start (xs ++ i :: ys)) :
    Chain next (next i) ys := by
  induction xs generalizing start with
  | nil => exact h.2
  | cons j xs ih => exact ih h.2

theorem start_eq (h : Chain next start l) : start = l.head? := by
  cases l with
  | nil => exact h
  | cons i l => exact h.1

/-- A walk that ends meets nothing twice. -/
theorem nodup (h : Chain next start l) : l.Nodup := by
  induction l generalizing start with
  | nil => exact List.nodup_nil
  | cons i l ih =>
      refine List.nodup_cons.2 ⟨fun hi => ?_, ih h.2⟩
      obtain ⟨xs, ys, rfl⟩ := List.append_of_mem hi
      have hsame := congrArg List.length (h.2.unique h.2.tail)
      simp at hsame
      omega

/-- The walk leads past `i` once the member before it has the link of `i`. -/
theorem bypass {xs ys : List α} {p i : α} (h : Chain next start (xs ++ p :: i :: ys))
    (hp : next' p = next i) (hother : ∀ j, j ≠ i → j ≠ p → next' j = next j) :
    Chain next' start (xs ++ p :: ys) := by
  induction xs generalizing start with
  | nil =>
      obtain ⟨hstart, -, htail⟩ := id h
      have hnodup := h.nodup
      simp only [List.nil_append, List.nodup_cons, List.mem_cons, not_or] at hnodup
      refine ⟨hstart, ?_⟩
      rw [hp]
      refine htail.congr fun j hj => hother j ?_ ?_
      · rintro rfl
        exact hnodup.2.1 hj
      · rintro rfl
        exact hnodup.1.2 hj
  | cons j xs ih =>
      have hnodup := h.nodup
      simp only [List.cons_append, List.nodup_cons, List.mem_append, List.mem_cons, not_or]
        at hnodup
      refine ⟨h.1, ?_⟩
      rw [hother j hnodup.1.2.2.1 hnodup.1.2.1]
      exact ih h.2

/-- The walk without `i`: what leads to `i`, a member or the start, leads past it. -/
theorem remove {start' : Option α} {xs ys : List α} {i : α}
    (h : Chain next start (xs ++ i :: ys))
    (hstart : start' = if xs = [] then next i else start)
    (hlast : ∀ p, xs.getLast? = some p → next' p = next i)
    (hother : ∀ j, j ≠ i → xs.getLast? ≠ some j → next' j = next j) :
    Chain next' start' (xs ++ ys) := by
  rcases List.eq_nil_or_concat xs with rfl | ⟨zs, p, rfl⟩
  · have hnodup := h.nodup
    simp only [List.nil_append, List.nodup_cons] at hnodup
    rw [hstart]
    refine h.2.congr fun j hj => hother j ?_ (by simp)
    rintro rfl
    exact hnodup.1 hj
  · simp only [List.concat_eq_append, List.append_assoc, List.cons_append, List.nil_append]
      at h hstart ⊢
    rw [hstart, if_neg (by simp)]
    refine h.bypass (hlast p (by simp)) fun j hj hjp => hother j hj ?_
    simpa using Ne.symm hjp

/-- The walk leads on to `i` once its last member does. -/
theorem extend {xs : List α} {p i : α} (h : Chain next start (xs ++ [p])) (hi : i ∉ xs ++ [p])
    (hp : next' p = some i) (hend : next' i = none)
    (hother : ∀ j, j ≠ i → j ≠ p → next' j = next j) :
    Chain next' start (xs ++ [p, i]) := by
  induction xs generalizing start with
  | nil => exact ⟨h.1, hp, hend⟩
  | cons j xs ih =>
      have hnodup := h.nodup
      simp only [List.cons_append, List.nodup_cons, List.mem_append, List.mem_singleton, not_or]
        at hnodup
      simp only [List.cons_append, List.mem_cons, not_or] at hi
      refine ⟨h.1, ?_⟩
      rw [hother j (Ne.symm hi.1) hnodup.1.2]
      exact ih h.2 hi.2

/-- The walk with `i` at its end: what ended the walk, its last member or the start, leads on to
`i`. -/
theorem concat {start' : Option α} {i : α} (h : Chain next start l) (hi : i ∉ l)
    (hstart : start' = if l = [] then some i else start)
    (hlast : ∀ p, l.getLast? = some p → next' p = some i) (hend : next' i = none)
    (hother : ∀ j, j ≠ i → l.getLast? ≠ some j → next' j = next j) :
    Chain next' start' (l ++ [i]) := by
  rcases List.eq_nil_or_concat l with rfl | ⟨xs, p, rfl⟩
  · exact ⟨by simpa using hstart, hend⟩
  · simp only [List.concat_eq_append, List.append_assoc, List.cons_append, List.nil_append]
      at h hi hstart ⊢
    rw [hstart, if_neg (by simp)]
    refine h.extend hi (hlast p (by simp)) hend fun j hj hjp => hother j hj ?_
    simpa using Ne.symm hjp

end Chain

/-- A list of slots without duplicates is no longer than there are slots. -/
theorem length_le_of_nodup {n : Nat} {l : List (Fin n)} (h : l.Nodup) : l.length ≤ n := by
  have hsubperm := List.subperm_of_subset h fun i _ => List.mem_finRange i
  simpa using hsubperm.length_le

/-- A list of slots without duplicates is as long as a count of its members. -/
theorem length_eq_countP {n : Nat} {l : List (Fin n)} {p : Fin n → Bool} (h : l.Nodup)
    (hmem : ∀ i, i ∈ l ↔ p i = true) : l.length = (List.finRange n).countP p := by
  have hperm : l.Perm ((List.finRange n).filter p) := by
    refine (List.perm_ext_iff_of_nodup h ((List.nodup_finRange n).filter p)).2 fun i => ?_
    rw [List.mem_filter, hmem]
    exact (and_iff_right (List.mem_finRange i)).symm
  rw [hperm.length_eq, List.countP_eq_length_filter]

end ChunkCache
