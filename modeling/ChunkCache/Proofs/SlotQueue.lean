import ChunkCache.Proofs.Chain

namespace ChunkCache.SlotQueue

variable {n : Nat} {q : SlotQueue n} {l : List (Fin n)}

def after (q : SlotQueue n) (slot : Fin n) : Option (Fin n) := (q.links.get slot).after

def before (q : SlotQueue n) (slot : Fin n) : Option (Fin n) := (q.links.get slot).before

/-- The slots of the queue from front to back are those of the list. -/
structure Holds (q : SlotQueue n) (l : List (Fin n)) : Prop where
  forward : Chain q.after q.front l
  backward : Chain q.before q.back l.reverse
  contains_iff : ∀ i, q.contains i = true ↔ i ∈ l
  size_eq : q.size = l.length

section Links

variable {slot target : Option (Fin n)} {i j : Fin n} {f : Link n → Link n}

theorem links_updateLink :
    (q.updateLink i f).links.get j = if i = j then f (q.links.get i) else q.links.get j := by
  change (q.links.set i (f (q.links.get i)) i.isLt)[j] = if i = j then _ else q.links[j]
  simp only [Fin.getElem_fin, Vector.getElem_set, Fin.ext_iff]

theorem after_updateLink :
    (q.updateLink i f).after j = if i = j then (f (q.links.get i)).after else q.after j := by
  simp only [after, links_updateLink]
  split <;> rfl

theorem before_updateLink :
    (q.updateLink i f).before j = if i = j then (f (q.links.get i)).before else q.before j := by
  simp only [before, links_updateLink]
  split <;> rfl

theorem contains_updateLink :
    (q.updateLink i f).contains j = if i = j then (f (q.links.get i)).queued else q.contains j := by
  simp only [contains, links_updateLink]
  split <;> rfl

@[simp] theorem front_updateLink : (q.updateLink i f).front = q.front := rfl

@[simp] theorem back_updateLink : (q.updateLink i f).back = q.back := rfl

theorem after_setAfter :
    (q.setAfter slot target).after j = if slot = some j then target else q.after j := by
  cases slot with
  | none => simp [setAfter, after]
  | some i =>
      simp only [setAfter, after, links_updateLink, Option.some.injEq]
      split <;> rfl

@[simp] theorem before_setAfter : (q.setAfter slot target).before = q.before := by
  funext j
  cases slot with
  | none => rfl
  | some i =>
      simp only [setAfter, before, links_updateLink]
      split <;> simp_all

@[simp] theorem contains_setAfter : (q.setAfter slot target).contains = q.contains := by
  funext j
  cases slot with
  | none => rfl
  | some i =>
      simp only [setAfter, contains, links_updateLink]
      split <;> simp_all

theorem front_setAfter :
    (q.setAfter slot target).front = if slot = none then target else q.front := by
  cases slot <;> rfl

@[simp] theorem back_setAfter : (q.setAfter slot target).back = q.back := by
  cases slot <;> rfl

theorem before_setBefore :
    (q.setBefore slot target).before j = if slot = some j then target else q.before j := by
  cases slot with
  | none => simp [setBefore, before]
  | some i =>
      simp only [setBefore, before, links_updateLink, Option.some.injEq]
      split <;> rfl

@[simp] theorem after_setBefore : (q.setBefore slot target).after = q.after := by
  funext j
  cases slot with
  | none => rfl
  | some i =>
      simp only [setBefore, after, links_updateLink]
      split <;> simp_all

@[simp] theorem contains_setBefore : (q.setBefore slot target).contains = q.contains := by
  funext j
  cases slot with
  | none => rfl
  | some i =>
      simp only [setBefore, contains, links_updateLink]
      split <;> simp_all

theorem back_setBefore :
    (q.setBefore slot target).back = if slot = none then target else q.back := by
  cases slot <;> rfl

@[simp] theorem front_setBefore : (q.setBefore slot target).front = q.front := by
  cases slot <;> rfl

end Links

section Pushed

variable {i j : Fin n}

theorem after_pushFront (hi : q.contains i = false) :
    (q.pushFront i).2.after j = if i = j then q.front else q.after j := by
  simp only [pushFront, hi, Bool.false_eq_true, if_false]
  change ((q.updateLink i _).setBefore q.front (some i)).after j = _
  rw [after_setBefore, after_updateLink]

theorem before_pushFront (hi : q.contains i = false) :
    (q.pushFront i).2.before j =
      if q.front = some j then some i else if i = j then none else q.before j := by
  simp only [pushFront, hi, Bool.false_eq_true, if_false]
  change ((q.updateLink i _).setBefore q.front (some i)).before j = _
  rw [before_setBefore, before_updateLink]

theorem contains_pushFront : (q.pushFront i).2.contains j = (decide (i = j) || q.contains j) := by
  unfold pushFront
  split
  · rename_i hi
    by_cases hij : i = j
    · simp [← hij, hi]
    · simp [hij]
  · change ((q.updateLink i _).setBefore q.front (some i)).contains j = _
    rw [contains_setBefore, contains_updateLink]
    by_cases hij : i = j <;> simp [hij]

theorem front_pushFront (hi : q.contains i = false) : (q.pushFront i).2.front = some i := by
  simp [pushFront, hi]

theorem back_pushFront (hi : q.contains i = false) :
    (q.pushFront i).2.back = if q.front = none then some i else q.back := by
  simp only [pushFront, hi, Bool.false_eq_true, if_false]
  rw [back_setBefore, back_updateLink]

theorem size_pushFront (hi : q.contains i = false) : (q.pushFront i).2.size = q.size + 1 := by
  simp [pushFront, hi]

theorem after_pushBack (hi : q.contains i = false) :
    (q.pushBack i).2.after j =
      if q.back = some j then some i else if i = j then none else q.after j := by
  simp only [pushBack, hi, Bool.false_eq_true, if_false]
  change ((q.updateLink i _).setAfter q.back (some i)).after j = _
  rw [after_setAfter, after_updateLink]

theorem before_pushBack (hi : q.contains i = false) :
    (q.pushBack i).2.before j = if i = j then q.back else q.before j := by
  simp only [pushBack, hi, Bool.false_eq_true, if_false]
  change ((q.updateLink i _).setAfter q.back (some i)).before j = _
  rw [before_setAfter, before_updateLink]

theorem contains_pushBack : (q.pushBack i).2.contains j = (decide (i = j) || q.contains j) := by
  unfold pushBack
  split
  · rename_i hi
    by_cases hij : i = j
    · simp [← hij, hi]
    · simp [hij]
  · change ((q.updateLink i _).setAfter q.back (some i)).contains j = _
    rw [contains_setAfter, contains_updateLink]
    by_cases hij : i = j <;> simp [hij]

theorem front_pushBack (hi : q.contains i = false) :
    (q.pushBack i).2.front = if q.back = none then some i else q.front := by
  simp only [pushBack, hi, Bool.false_eq_true, if_false]
  rw [front_setAfter, front_updateLink]

theorem back_pushBack (hi : q.contains i = false) : (q.pushBack i).2.back = some i := by
  simp [pushBack, hi]

theorem size_pushBack (hi : q.contains i = false) : (q.pushBack i).2.size = q.size + 1 := by
  simp [pushBack, hi]

end Pushed

section Erased

variable {i j : Fin n}

theorem after_erase (hi : q.contains i = true) (hij : i ≠ j) :
    (q.erase i).2.after j = if q.before i = some j then q.after i else q.after j := by
  have hq : (q.links.get i).queued = true := hi
  simp only [erase, hq, if_true]
  change (((q.setAfter (q.before i) (q.after i)).setBefore (q.after i) (q.before i)).updateLink i
    fun _ => {}).after j = _
  rw [after_updateLink, if_neg hij, after_setBefore, after_setAfter]

theorem before_erase (hi : q.contains i = true) (hij : i ≠ j) :
    (q.erase i).2.before j = if q.after i = some j then q.before i else q.before j := by
  have hq : (q.links.get i).queued = true := hi
  simp only [erase, hq, if_true]
  change (((q.setAfter (q.before i) (q.after i)).setBefore (q.after i) (q.before i)).updateLink i
    fun _ => {}).before j = _
  rw [before_updateLink, if_neg hij, before_setBefore, before_setAfter]

theorem contains_erase : (q.erase i).2.contains j = (!decide (i = j) && q.contains j) := by
  by_cases hi : q.contains i = true
  · have hq : (q.links.get i).queued = true := hi
    simp only [erase, hq, if_true]
    change (((q.setAfter (q.before i) (q.after i)).setBefore (q.after i) (q.before i)).updateLink i
      fun _ => {}).contains j = _
    rw [contains_updateLink, contains_setBefore, contains_setAfter]
    by_cases hij : i = j <;> simp [hij]
  · have hq : (q.links.get i).queued = false := by simpa [contains] using hi
    simp only [erase, hq, Bool.false_eq_true, if_false]
    by_cases hij : i = j
    · simpa [← hij] using hi
    · simp [hij]

theorem fst_erase : (q.erase i).1 = q.contains i := by
  simp only [erase, contains]
  split <;> simp_all

theorem front_erase (hi : q.contains i = true) :
    (q.erase i).2.front = if q.before i = none then q.after i else q.front := by
  have hq : (q.links.get i).queued = true := hi
  simp only [erase, hq, if_true]
  rw [front_updateLink, front_setBefore, front_setAfter]
  rfl

theorem back_erase (hi : q.contains i = true) :
    (q.erase i).2.back = if q.after i = none then q.before i else q.back := by
  have hq : (q.links.get i).queued = true := hi
  simp only [erase, hq, if_true]
  rw [back_updateLink, back_setBefore, back_setAfter]
  rfl

theorem size_erase (hi : q.contains i = true) : (q.erase i).2.size = q.size - 1 := by
  have hq : (q.links.get i).queued = true := hi
  simp only [erase, hq, if_true]

theorem erase_of_not_contains (hi : q.contains i = false) : q.erase i = (false, q) := by
  have hq : (q.links.get i).queued = false := hi
  simp only [erase, hq, Bool.false_eq_true, if_false]

end Erased

theorem follow_eq_of_chain {steps : Nat} {start : Option (Fin n)} (h : Chain q.after start l)
    (hsteps : l.length ≤ steps) : q.follow steps start = l := by
  induction steps generalizing start l with
  | zero =>
      rw [List.eq_nil_of_length_eq_zero (Nat.le_zero.1 hsteps)]
      rfl
  | succ steps ih =>
      cases l with
      | nil =>
          rw [h.start_eq]
          rfl
      | cons i l =>
          rw [h.1]
          exact congrArg (i :: ·) (ih h.2 (Nat.le_of_succ_le_succ hsteps))

namespace Holds

theorem nodup (h : q.Holds l) : l.Nodup := h.forward.nodup

theorem front_eq (h : q.Holds l) : q.front = l.head? := h.forward.start_eq

theorem back_eq (h : q.Holds l) : q.back = l.getLast? := by
  rw [h.backward.start_eq, List.head?_reverse]

theorem before_eq {xs ys : List (Fin n)} {i : Fin n} (h : q.Holds (xs ++ i :: ys)) :
    q.before i = xs.getLast? := by
  have hback := h.backward
  simp only [List.reverse_append, List.reverse_cons, List.append_assoc, List.singleton_append]
    at hback
  rw [hback.tail.start_eq, List.head?_reverse]

theorem after_eq {xs ys : List (Fin n)} {i : Fin n} (h : q.Holds (xs ++ i :: ys)) :
    q.after i = ys.head? :=
  h.forward.tail.start_eq

theorem not_contains {i : Fin n} (h : q.Holds l) (hi : i ∉ l) : q.contains i = false := by
  rw [Bool.eq_false_iff, Ne, h.contains_iff]
  exact hi

theorem pushFront {i : Fin n} (h : q.Holds l) (hi : i ∉ l) : (q.pushFront i).2.Holds (i :: l) := by
  have hc := h.not_contains hi
  constructor
  · refine ⟨front_pushFront hc, ?_⟩
    rw [after_pushFront hc, if_pos rfl]
    refine h.forward.congr fun j hj => ?_
    rw [after_pushFront hc, if_neg]
    rintro rfl
    exact hi hj
  · rw [List.reverse_cons]
    refine h.backward.concat (by simpa using hi) ?_ ?_ ?_ ?_
    · rw [back_pushFront hc, h.front_eq]
      cases l <;> simp
    · intro p hp
      rw [before_pushFront hc, h.front_eq]
      simp_all
    · rw [before_pushFront hc, if_neg, if_pos rfl]
      rw [h.front_eq]
      intro hfront
      exact hi (List.mem_of_mem_head? hfront)
    · intro j hj hfront
      rw [before_pushFront hc, if_neg, if_neg (Ne.symm hj)]
      rw [h.front_eq]
      simpa using hfront
  · intro j
    rw [contains_pushFront, Bool.or_eq_true, decide_eq_true_eq, h.contains_iff, List.mem_cons]
    exact or_congr_left eq_comm
  · rw [size_pushFront hc, h.size_eq, List.length_cons]

theorem pushBack {i : Fin n} (h : q.Holds l) (hi : i ∉ l) : (q.pushBack i).2.Holds (l ++ [i]) := by
  have hc := h.not_contains hi
  constructor
  · refine h.forward.concat hi ?_ ?_ ?_ ?_
    · rw [front_pushBack hc, h.back_eq]
      cases l <;> simp
    · intro p hp
      rw [after_pushBack hc, h.back_eq, if_pos hp]
    · rw [after_pushBack hc, if_neg, if_pos rfl]
      rw [h.back_eq]
      intro hback
      exact hi (List.mem_of_getLast? hback)
    · intro j hj hback
      rw [after_pushBack hc, if_neg, if_neg (Ne.symm hj)]
      rwa [h.back_eq]
  · rw [List.reverse_append, List.reverse_singleton]
    refine ⟨back_pushBack hc, ?_⟩
    rw [before_pushBack hc, if_pos rfl]
    refine h.backward.congr fun j hj => ?_
    rw [before_pushBack hc, if_neg]
    rintro rfl
    exact hi (List.mem_reverse.1 hj)
  · intro j
    rw [contains_pushBack, Bool.or_eq_true, decide_eq_true_eq, h.contains_iff, List.mem_append,
      List.mem_singleton, or_comm]
    exact or_congr_right eq_comm
  · rw [size_pushBack hc, h.size_eq, List.length_append, List.length_singleton]

theorem erase {i : Fin n} {xs ys : List (Fin n)} (h : q.Holds (xs ++ i :: ys)) :
    (q.erase i).2.Holds (xs ++ ys) := by
  have hc : q.contains i = true := (h.contains_iff i).2 (by simp)
  have hi : i ∉ xs ++ ys := (List.nodup_cons.1 (List.nodup_middle.1 h.nodup)).1
  rw [List.mem_append, not_or] at hi
  constructor
  · refine h.forward.remove ?_ ?_ ?_
    · rw [front_erase hc, h.before_eq]
      cases xs <;> simp
    · intro p hp
      rw [after_erase hc, h.before_eq, if_pos hp]
      rintro rfl
      exact hi.1 (List.mem_of_getLast? hp)
    · intro j hj hlast
      rw [after_erase hc (Ne.symm hj), h.before_eq, if_neg hlast]
  · have hback := h.backward
    simp only [List.reverse_append, List.reverse_cons, List.append_assoc, List.singleton_append]
      at hback ⊢
    refine hback.remove ?_ ?_ ?_
    · rw [back_erase hc, h.after_eq]
      cases ys <;> simp
    · intro p hp
      rw [List.getLast?_reverse] at hp
      rw [before_erase hc, h.after_eq, if_pos hp]
      rintro rfl
      exact hi.2 (List.mem_of_mem_head? hp)
    · intro j hj hlast
      rw [List.getLast?_reverse] at hlast
      rw [before_erase hc (Ne.symm hj), h.after_eq, if_neg hlast]
  · intro j
    rw [contains_erase, Bool.and_eq_true, h.contains_iff]
    rcases eq_or_ne i j with rfl | hij
    · simp [hi]
    · simp [hij, Ne.symm hij]
  · rw [size_erase hc, h.size_eq]
    simp

theorem erase_list {i : Fin n} (h : q.Holds l) : (q.erase i).2.Holds (l.erase i) := by
  by_cases hi : i ∈ l
  · obtain ⟨xs, ys, rfl⟩ := List.append_of_mem hi
    have hnodup := List.nodup_cons.1 (List.nodup_middle.1 h.nodup)
    rw [List.mem_append, not_or] at hnodup
    rw [List.erase_append_right _ hnodup.1.1, List.erase_cons_head]
    exact h.erase
  · rw [erase_of_not_contains (h.not_contains hi), List.erase_of_not_mem hi]
    exact h

theorem popBack_eq_none (h : q.Holds l) : q.popBack = none ↔ l = [] := by
  rw [SlotQueue.popBack, h.back_eq]
  rcases List.eq_nil_or_concat l with rfl | ⟨xs, i, rfl⟩
  · simp
  · have hi : (q.erase i).1 = true := by
      rw [fst_erase, h.contains_iff]
      simp
    rw [List.concat_eq_append, List.getLast?_concat]
    cases herase : q.erase i with
    | mk found q' => simp_all

/-- The slot that is taken out at the back is the last one of the list. -/
theorem popBack {i : Fin n} {q' : SlotQueue n} (h : q.Holds l)
    (hpop : q.popBack = some (i, q')) : ∃ xs, l = xs ++ [i] ∧ q'.Holds xs := by
  rw [SlotQueue.popBack, h.back_eq] at hpop
  rcases List.eq_nil_or_concat l with rfl | ⟨xs, j, rfl⟩
  · simp at hpop
  · rw [List.concat_eq_append] at h hpop
    rw [List.getLast?_concat] at hpop
    have herase : (q.erase j).2.Holds (xs ++ []) := h.erase
    rw [List.append_nil] at herase
    cases hresult : q.erase j with
    | mk found q'' =>
        rw [hresult] at herase
        cases found with
        | false => simp [hresult] at hpop
        | true =>
            simp only [hresult, Option.some.injEq, Prod.mk.injEq] at hpop
            obtain ⟨rfl, rfl⟩ := hpop
            exact ⟨xs, List.concat_eq_append, herase⟩

theorem toList_eq (h : q.Holds l) : q.toList = l :=
  follow_eq_of_chain h.forward (length_le_of_nodup h.nodup)

theorem pushFrontAll {slots : List (Fin n)} (h : q.Holds l)
    (hnodup : (slots.reverse ++ l).Nodup) :
    (slots.foldl (fun q slot => (q.pushFront slot).2) q).Holds (slots.reverse ++ l) := by
  induction slots generalizing q l with
  | nil => exact h
  | cons i slots ih =>
      rw [List.reverse_cons, List.append_assoc, List.singleton_append] at hnodup ⊢
      refine ih (h.pushFront ?_) hnodup
      exact (List.nodup_cons.1 (List.nodup_append.1 hnodup).2.1).1

end Holds

theorem holds_empty : (empty n).Holds [] := by
  refine ⟨rfl, rfl, fun i => ?_, rfl⟩
  change (Vector.replicate n ({} : Link n))[i].queued = true ↔ i ∈ []
  simp

/-- The full queue holds every slot, the first one at its back. -/
theorem holds_full : (full n).Holds (List.finRange n).reverse := by
  have hnodup : ((List.finRange n).reverse ++ []).Nodup := by
    simpa using List.nodup_finRange n
  simpa [full] using holds_empty.pushFrontAll hnodup

end ChunkCache.SlotQueue
