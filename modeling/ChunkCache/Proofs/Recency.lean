import Mathlib.Data.List.Nodup
import ChunkCache.Proofs.View

/-!
The idle slots in the order of what made them idle. At the end of their list are the vacant slots,
the one vacated last at its very end, and before them the slots whose chunks nobody holds, the one
released last at the start. Every effect keeps this order, and a slot that is reclaimed is taken
from the end.
-/

namespace ChunkCache

section FirstOccurrences

variable {α : Type} [DecidableEq α] {p q : α → Bool} {a : α}

theorem eraseDups_filter (p : α → Bool) :
    (l : List α) → (l.filter p).eraseDups = l.eraseDups.filter p
  | [] => rfl
  | a :: l => by
      have hlength := List.length_filter_le (fun b => !b == a) l
      have hrest := eraseDups_filter p (l.filter fun b => !b == a)
      rw [List.eraseDups_cons, List.filter_cons, List.filter_cons, ← hrest]
      by_cases ha : p a = true
      · rw [if_pos ha, if_pos ha, List.eraseDups_cons, List.filter_comm]
      · rw [if_neg ha, if_neg ha, List.filter_filter]
        congr 1
        refine List.filter_congr fun b _ => ?_
        by_cases hb : b = a
        · simp [hb, ha]
        · simp [hb]
termination_by l => l.length
decreasing_by
  rw [List.length_cons]
  omega

theorem eraseDups_cons_eq (a : α) (l : List α) :
    (a :: l).eraseDups = a :: l.eraseDups.filter (· != a) := by
  rw [List.eraseDups_cons, eraseDups_filter]
  rfl

theorem eraseDups_of_nodup {l : List α} (hl : l.Nodup) : l.eraseDups = l := by
  induction l with
  | nil => rfl
  | cons a l ih =>
      obtain ⟨ha, hl⟩ := List.nodup_cons.1 hl
      rw [eraseDups_cons_eq, ih hl, List.filter_eq_self.2]
      intro b hb
      rw [bne_iff_ne]
      rintro rfl
      exact ha hb

/-- A member that is put in front, and is admitted only now. -/
theorem filter_eraseDups_cons (l : List α) (ha : q a = true) (hpa : p a = false)
    (hpq : ∀ b, b ≠ a → q b = p b) :
    (a :: l).eraseDups.filter q = a :: l.eraseDups.filter p := by
  rw [eraseDups_cons_eq, List.filter_cons, if_pos ha, List.filter_filter]
  congr 1
  refine List.filter_congr fun b _ => ?_
  by_cases hb : b = a
  · simp [hb, hpa]
  · simp [hb, hpq b hb]

/-- What comes first in a list comes first among its members. -/
theorem pairwise_eraseDups (l : List α) :
    l.eraseDups.Pairwise fun a b => l.idxOf a < l.idxOf b := by
  induction l with
  | nil => exact .nil
  | cons a l ih =>
      rw [eraseDups_cons_eq, List.pairwise_cons]
      refine ⟨fun b hb => ?_, ?_⟩
      · have hne : b ≠ a := by simpa using (List.mem_filter.1 hb).2
        rw [List.idxOf_cons_self, List.idxOf_cons_ne _ hne.symm]
        exact Nat.succ_pos _
      · rw [List.pairwise_filter]
        refine ih.imp fun {b b'} hlt hb hb' => ?_
        rw [List.idxOf_cons_ne _ (bne_iff_ne.1 hb).symm,
          List.idxOf_cons_ne _ (bne_iff_ne.1 hb').symm]
        exact Nat.succ_lt_succ hlt

end FirstOccurrences

namespace View

open Function

variable {n : Nat} {v v' u : View n} {i j : Fin n} {a : Address} {p : Payload}
variable {released vacated : List (Fin n)} {l : List (Fin n)}

def vacant (v : View n) (i : Fin n) : Bool := (v.tenant i).isNone

/-- The slot has a chunk and nobody holds it. -/
def resting (v : View n) (i : Fin n) : Bool := (v.tenant i).isSome && decide (v.mark i = 0)

section Marks

theorem resting_retain (hi : 0 ≤ v.mark i) (j : Fin n) :
    (v.retain i).resting j = (v.resting j && j != i) := by
  rw [resting, mark_retain, resting]
  by_cases hij : j = i
  · subst hij
    simp [show v.mark j + 1 ≠ 0 by omega]
  · simp [hij, retain]

theorem resting_of_queue (hi : 0 ≤ v.mark i) (hj : (v.queue i).resting j = true) :
    v.resting j = true := by
  unfold queue at hj
  split at hj
  · exact hj
  · have hkept := resting_retain (v := { v with pending := i :: v.pending }) hi j
    rw [hj] at hkept
    exact (Bool.and_eq_true_iff.1 hkept.symm).1

theorem resting_occupy (j : Fin n) : (v.occupy i a p).resting j = (v.resting j && j != i) := by
  change ((update v.tenant i (some a) j).isSome && decide (update v.mark i 1 j = 0)) = _
  by_cases hij : j = i
  · simp [hij]
  · simp [hij, resting]

theorem resting_vacate (hi : v.mark i ≠ 0) : (v.vacate i).resting = v.resting := by
  funext j
  change ((update v.tenant i none j).isSome && decide (update v.mark i 0 j = 0)) = _
  by_cases hij : j = i
  · simp [hij, hi, resting]
  · simp [hij, resting]

theorem resting_release (hi : (v.tenant i).isSome) (j : Fin n) :
    (v.release i).resting j = (decide (j = i ∧ v.mark i = 1) || v.resting j) := by
  rw [resting, tenant_release, mark_release, resting]
  by_cases hij : j = i
  · subst hij
    by_cases hone : v.mark j = 1
    · simp [hi, hone]
    · by_cases hpos : 0 < v.mark j
      · simp [hone, hpos, show v.mark j - 1 ≠ 0 by omega, show v.mark j ≠ 0 by omega]
      · simp [hone, hpos]
  · simp [hij]

theorem resting_save (hpending : v.pending.Nodup) (hi : (v.tenant i).isSome) :
    v.save.resting i = (decide (i ∈ v.pending ∧ v.mark i = 1) || v.resting i) := by
  rw [resting, tenant_save, mark_save hpending, resting]
  by_cases hmem : i ∈ v.pending
  · by_cases hone : v.mark i = 1
    · simp [hi, hmem, hone]
    · by_cases hpos : 0 < v.mark i
      · simp [hmem, hone, hpos, show v.mark i - 1 ≠ 0 by omega, show v.mark i ≠ 0 by omega]
      · simp [hone, hpos]
  · simp [hmem]

end Marks

/-- The idle slots in the order of their histories: `released` are the slots in the order in which
their last marks were given back, and `vacated` those that were vacated, both the last one first. -/
structure Recent (v : View n) (released vacated : List (Fin n)) : Prop where
  idle : v.idle =
    released.eraseDups.filter v.resting ++ (vacated.eraseDups.filter v.vacant).reverse
  pending : ∀ i ∈ v.pending, (v.tenant i).isSome

namespace Recent

theorem empty {hash : Address → UInt64} : (View.empty n hash).Recent [] (List.finRange n) where
  idle := by
    have hall : (List.finRange n).eraseDups.filter (View.empty n hash).vacant =
        (List.finRange n).eraseDups := List.filter_eq_self.2 fun _ _ => rfl
    rw [hall, eraseDups_of_nodup (List.nodup_finRange n)]
    rfl
  pending i hi := by cases hi

section Effects

variable (h : v.Recent released vacated) (ht : v.Tidy)

include h

/-- A slot leaves the idle slots and is in neither part of them. -/
theorem leave (hidle : v'.idle = v.idle.filter (· != i))
    (hresting : ∀ j, v'.resting j = (v.resting j && j != i))
    (hvacant : ∀ j, v'.vacant j = (v.vacant j && j != i))
    (hpending : ∀ i ∈ v'.pending, (v'.tenant i).isSome) : v'.Recent released vacated where
  idle := by
    have hresting' : v'.resting = fun j => j != i && v.resting j :=
      funext fun j => (hresting j).trans (Bool.and_comm ..)
    have hvacant' : v'.vacant = fun j => j != i && v.vacant j :=
      funext fun j => (hvacant j).trans (Bool.and_comm ..)
    rw [hidle, h.idle, List.filter_append, List.filter_reverse, List.filter_filter,
      List.filter_filter, hresting', hvacant']
  pending := hpending

theorem congr (htenant : v'.tenant = v.tenant) (hmark : v'.mark = v.mark) (hidle : v'.idle = v.idle)
    (hpending : ∀ i ∈ v'.pending, i ∈ v.pending) : v'.Recent released vacated where
  idle := by
    have hresting : v'.resting = v.resting := by
      funext j
      rw [resting, resting, htenant, hmark]
    have hvacant : v'.vacant = v.vacant := by
      funext j
      rw [vacant, vacant, htenant]
    rw [hidle, h.idle, hresting, hvacant]
  pending j hj := by
    rw [htenant]
    exact h.pending j (hpending j hj)

theorem write : (v.write i p).Recent released vacated := h.congr rfl rfl rfl fun _ hj => hj

theorem requeue (hi : i ∈ v.pending) : (v.requeue i).Recent released vacated := by
  refine h.congr rfl rfl rfl fun j hj => ?_
  rcases List.mem_cons.1 hj with rfl | hj
  · exact hi
  · exact List.mem_of_mem_erase hj

/-- The slot whose last mark is given back is now the one released last. -/
theorem release (hi : (v.tenant i).isSome) :
    (v.release i).Recent ((if v.mark i = 1 then [i] else []) ++ released) vacated := by
  by_cases hone : v.mark i = 1
  · have hrelease : v.release i = { v with mark := update v.mark i 0, idle := i :: v.idle } := by
      rw [View.release, if_neg (by omega), if_pos hone, hone, Int.sub_self]
    rw [hrelease, if_pos hone]
    refine ⟨?_, h.pending⟩
    change i :: v.idle = _
    rw [List.singleton_append, filter_eraseDups_cons released (p := v.resting), List.cons_append,
      h.idle]
    · rfl
    · simp [resting, hi]
    · simp [resting, hone]
    · intro j hij
      simp [resting, hij]
  · rw [if_neg hone, List.nil_append]
    have hidle : (v.release i).idle = v.idle := by
      rw [View.release]
      split
      · rfl
      · rfl
    have hresting : (v.release i).resting = v.resting := by
      funext j
      rw [resting_release hi, decide_eq_false fun hj => hone hj.2, Bool.false_or]
    have hvacant : (v.release i).vacant = v.vacant := by
      funext j
      rw [vacant, vacant, tenant_release]
    refine ⟨by rw [hidle, hresting, hvacant, h.idle], fun j hj => ?_⟩
    rw [pending_release] at hj
    rw [tenant_release]
    exact h.pending j hj

include ht

theorem retain (hi : (v.tenant i).isSome) : (v.retain i).Recent released vacated := by
  refine h.leave ?_ (resting_retain (ht.nonneg i)) (fun j => ?_) h.pending
  · change (if v.mark i = 0 then v.idle.erase i else v.idle) = _
    split
    · rw [ht.idle.erase_eq_filter]
    · rename_i hne
      refine (List.filter_eq_self.2 fun j hj => ?_).symm
      rw [bne_iff_ne]
      rintro rfl
      exact hne (ht.mem_idle.1 hj)
  · change (v.tenant j).isNone = ((v.tenant j).isNone && j != i)
    by_cases hij : j = i
    · subst hij
      simp [hi]
    · simp [hij]

theorem queue (hi : (v.tenant i).isSome) : (v.queue i).Recent released vacated := by
  unfold View.queue
  split
  · exact h
  · refine Recent.retain ⟨h.idle, fun j hj => ?_⟩ ?_ hi
    · rcases List.mem_cons.1 hj with rfl | hj
      · exact hi
      · exact h.pending j hj
    · rename_i hout
      exact ⟨ht.distinct, ht.nonneg, ht.mem_idle, ht.idle, List.nodup_cons.2 ⟨hout, ht.pending⟩⟩

theorem occupy (i : Fin n) (a : Address) (p : Payload) :
    (v.occupy i a p).Recent released vacated := by
  refine h.leave (ht.idle.erase_eq_filter i) resting_occupy (fun j => ?_) fun j hj => ?_
  · change (update v.tenant i (some a) j).isNone = _
    by_cases hij : j = i
    · simp [hij]
    · simp [hij, vacant]
  · change (update v.tenant i (some a) j).isSome
    by_cases hij : j = i
    · simp [hij]
    · rw [update_of_ne hij]
      exact h.pending j hj

theorem vacate (hi : (v.tenant i).isSome) (hmark : v.mark i ≠ 0) :
    (v.vacate i).Recent released (i :: vacated) := by
  have htenant : ∀ j, (v.vacate i).tenant j = if j = i then none else v.tenant j :=
    fun j => update_apply ..
  refine ⟨?_, fun j hj => ?_⟩
  · change v.idle ++ [i] = _
    rw [filter_eraseDups_cons vacated (p := v.vacant), List.reverse_cons, ← List.append_assoc,
      resting_vacate hmark, h.idle]
    · simp [vacant, htenant]
    · simp [vacant, hi]
    · intro j hij
      simp [vacant, htenant, hij]
  · have hne : j ≠ i := by
      rintro rfl
      exact absurd hj (ht.pending.not_mem_erase)
    rw [htenant, if_neg hne]
    exact h.pending j (List.mem_of_mem_erase hj)

/-- The slots are released from the last one of the list on. -/
theorem releaseAll (hl : l.Nodup) (hi : ∀ i ∈ l, (v.tenant i).isSome) :
    (l.reverse.foldl View.release v).Tidy ∧ (l.reverse.foldl View.release v).Recent
      (l.filter (fun i => v.mark i = 1) ++ released) vacated := by
  induction l with
  | nil => exact ⟨ht, h⟩
  | cons i l ih =>
      obtain ⟨hout, hl⟩ := List.nodup_cons.1 hl
      obtain ⟨hi, hrest⟩ := List.forall_mem_cons.1 hi
      obtain ⟨htidy, hrecent⟩ := ih hl hrest
      have hmark : (l.reverse.foldl View.release v).mark i = v.mark i := by
        rw [mark_releaseAll (List.nodup_reverse.2 hl), if_neg]
        exact fun hmem => hout (List.mem_reverse.1 hmem.1)
      rw [List.reverse_cons, List.foldl_append]
      refine ⟨htidy.release, ?_⟩
      have hrelease := hrecent.release (i := i) (by rw [tenant_releaseAll]; exact hi)
      rw [hmark] at hrelease
      change (View.release _ i).Recent _ _
      rw [List.filter_cons]
      by_cases hone : v.mark i = 1
      · simpa [hone] using hrelease
      · simpa [hone] using hrelease

theorem save : v.save.Recent (v.pending.filter (fun i => v.mark i = 1) ++ released) vacated := by
  have hcleaned :
      (v.pending.reverse.foldl clean { v with pending := [] }).Recent released vacated := by
      rw [cleanAll_eq]
      exact ⟨h.idle, fun i hi => by cases hi⟩
  have htidy : (v.pending.reverse.foldl clean { v with pending := [] }).Tidy := by
    rw [cleanAll_eq]
    exact ⟨ht.distinct, ht.nonneg, ht.mem_idle, ht.idle, List.nodup_nil⟩
  have hall := (hcleaned.releaseAll htidy ht.pending (by
    rw [cleanAll_eq]
    exact h.pending)).2
  rw [cleanAll_eq] at hall
  rw [View.save, cleanAll_eq]
  exact hall

end Effects

section Last

variable (h : v.Recent released vacated) (hall : ∀ i, i ∈ vacated)

include h

/-- The slot that was vacated last is at the end as long as it is vacant. -/
theorem getLast?_of_vacated (hi : vacated.head? = some i) (hvacant : v.tenant i = none) :
    v.idle.getLast? = some i := by
  obtain ⟨rest, rfl⟩ := List.head?_eq_some_iff.1 hi
  have hfirst : v.vacant i = true := by rw [vacant, hvacant, Option.isNone_none]
  rw [h.idle, eraseDups_cons_eq, List.filter_cons, if_pos hfirst, List.reverse_cons,
    ← List.append_assoc, List.getLast?_concat]

include hall

/-- A slot that holds a chunk is at the end only if none is vacant. -/
theorem isSome_of_getLast? (hi : v.idle.getLast? = some i) (hchunk : (v.tenant i).isSome)
    (j : Fin n) : (v.tenant j).isSome := by
  by_contra hj
  obtain ⟨k, rest, hvacant⟩ : ∃ k rest, vacated.eraseDups.filter v.vacant = k :: rest := by
    refine List.exists_cons_of_ne_nil (List.ne_nil_of_mem (a := j) ?_)
    exact List.mem_filter.2 ⟨List.mem_eraseDups.2 (hall j), by simpa [vacant] using hj⟩
  have hk : v.vacant k = true := (List.mem_filter.1 (hvacant ▸ List.mem_cons_self)).2
  rw [h.idle, hvacant, List.reverse_cons, ← List.append_assoc, List.getLast?_concat] at hi
  rw [← Option.some.inj hi, ← Option.not_isNone, show (v.tenant k).isNone = true from hk] at hchunk
  cases hchunk

/-- If it holds a chunk, the slot at the end is the one released first among the idle slots. -/
theorem idxOf_lt_of_getLast? (ht : v.Tidy) (hi : v.idle.getLast? = some i)
    (hchunk : (v.tenant i).isSome) :
    i ∈ released ∧ ∀ j, j ≠ i → v.mark j = 0 → released.idxOf j < released.idxOf i := by
  have hfull := h.isSome_of_getLast? hall hi hchunk
  have hnone : vacated.eraseDups.filter v.vacant = [] := by
    refine List.filter_eq_nil_iff.2 fun j _ => ?_
    rw [vacant, Option.isNone_iff_eq_none, ← Option.not_isSome_iff_eq_none, not_not]
    exact hfull j
  have hidle := h.idle
  rw [hnone, List.reverse_nil, List.append_nil] at hidle
  have hpairwise := (pairwise_eraseDups released).filter v.resting
  rw [← hidle] at hpairwise
  obtain ⟨earlier, hearlier⟩ := List.getLast?_eq_some_iff.1 hi
  refine ⟨?_, fun j hij hj => ?_⟩
  · have hmem := List.mem_of_getLast? hi
    rw [hidle] at hmem
    exact List.mem_eraseDups.1 (List.mem_filter.1 hmem).1
  · have hmem := ht.mem_idle.2 hj
    rw [hearlier, List.mem_append, List.mem_singleton] at hmem
    rw [hearlier] at hpairwise
    exact (List.pairwise_append.1 hpairwise).2.2 j (hmem.resolve_right hij) i List.mem_cons_self

end Last

end Recent

/-- What a call may do to the chunks in the slots: nothing, put one into the slot at the end of the
idle ones, or vacate a slot. -/
inductive Turnover (v v' : View n) : List (Fin n) → Prop
  | same (htenant : v'.tenant = v.tenant) : Turnover v v' []
  | filled (i : Fin n) (a : Address) (hlast : v.idle.getLast? = some i)
      (htenant : v'.tenant = update v.tenant i (some a)) : Turnover v v' []
  | vacated (i : Fin n) (hi : (v.tenant i).isSome) (htenant : v'.tenant = update v.tenant i none) :
      Turnover v v' [i]

/-- A call lets the slots `released` come to rest and vacates the slots `vacated`, and the histories
grow by these. -/
structure Chronicled (v v' : View n) (released vacated : List (Fin n)) : Prop where
  recent : ∀ {before vacant}, v.Recent before vacant →
    v'.Recent (released ++ before) (vacated ++ vacant)
  resting : ∀ {before vacant}, v.Recent before vacant → ∀ i ∈ released, v'.resting i = true
  released : ∀ {i}, v'.resting i = true → i ∈ released ∨ v.resting i = true
  turnover : v.Turnover v' vacated

namespace Chronicled

/-- No slot comes to rest. -/
theorem keep (hrecent : ∀ {before vacant}, v.Recent before vacant → v'.Recent before vacant)
    (hresting : ∀ {i}, v'.resting i = true → v.resting i = true) (hturnover : v.Turnover v' []) :
    v.Chronicled v' [] [] :=
  ⟨hrecent, fun _ _ => nofun, fun hi => .inr (hresting hi), hturnover⟩

theorem refl (v : View n) : v.Chronicled v [] [] := keep id id (.same rfl)

theorem retain (ht : v.Tidy) (hi : (v.tenant i).isSome) : v.Chronicled (v.retain i) [] [] := by
  refine keep (fun h => h.retain ht hi) (fun hj => ?_) (.same rfl)
  rw [resting_retain (ht.nonneg i), Bool.and_eq_true] at hj
  exact hj.1

theorem queue (ht : v.Tidy) (hi : (v.tenant i).isSome) : v.Chronicled (v.queue i) [] [] :=
  keep (fun h => h.queue ht hi) (resting_of_queue (ht.nonneg i)) (.same tenant_queue)

theorem write (v : View n) (i : Fin n) (p : Payload) : v.Chronicled (v.write i p) [] [] :=
  keep (fun h => h.write) id (.same rfl)

theorem requeue (hi : i ∈ v.pending) : v.Chronicled (v.requeue i) [] [] :=
  keep (fun h => h.requeue hi) id (.same rfl)

theorem occupy (ht : v.Tidy) (hi : v.idle.getLast? = some i) :
    v.Chronicled (v.occupy i a p) [] [] := by
  refine keep (fun h => h.occupy ht i a p) (fun hj => ?_) (.filled i a hi rfl)
  rw [resting_occupy, Bool.and_eq_true] at hj
  exact hj.1

theorem release (hi : (v.tenant i).isSome) :
    v.Chronicled (v.release i) (if v.mark i = 1 then [i] else []) [] := by
  refine ⟨fun h => h.release hi, fun _ j hj => ?_, fun {j} hj => ?_, .same tenant_release⟩
  · split at hj
    · rename_i hone
      rw [List.mem_singleton] at hj
      rw [resting_release hi, decide_eq_true ⟨hj, hone⟩, Bool.true_or]
    · cases hj
  · rw [resting_release hi, Bool.or_eq_true, decide_eq_true_eq] at hj
    refine hj.imp_left ?_
    rintro ⟨rfl, hone⟩
    rw [if_pos hone]
    exact List.mem_cons_self

theorem vacate (ht : v.Tidy) (hi : (v.tenant i).isSome) (hmark : v.mark i ≠ 0) :
    v.Chronicled (v.vacate i) [] [i] := by
  refine ⟨fun h => h.vacate ht hi hmark, fun _ _ => nofun, fun hj => ?_, .vacated i hi rfl⟩
  rw [resting_vacate hmark] at hj
  exact .inr hj

theorem save (ht : v.Tidy) :
    v.Chronicled v.save (v.pending.filter fun i => v.mark i = 1) [] := by
  refine ⟨fun h => h.save ht, fun h i hi => ?_, fun {i} hi => ?_, .same tenant_save⟩
  · obtain ⟨hmem, hone⟩ := List.mem_filter.1 hi
    rw [resting_save ht.pending (h.pending i hmem), decide_eq_true ⟨hmem, of_decide_eq_true hone⟩,
      Bool.true_or]
  · have hchunk : (v.tenant i).isSome := by
      rw [View.resting, Bool.and_eq_true, tenant_save] at hi
      exact hi.1
    rw [resting_save ht.pending hchunk, Bool.or_eq_true, decide_eq_true_eq] at hi
    refine hi.imp_left fun ⟨hmem, hone⟩ => List.mem_filter.2 ⟨hmem, decide_eq_true hone⟩

/-- Later effects of a call do not change what the slots hold. -/
theorem trans (h : v.Chronicled u [] []) (h' : u.Chronicled v' released [])
    (htenant : v'.tenant = u.tenant) : v.Chronicled v' released [] where
  recent hv := h'.recent (h.recent hv)
  resting hv := h'.resting (h.recent hv)
  released hi := (h'.released hi).imp_right fun hi => (h.released hi).resolve_left List.not_mem_nil
  turnover := by
    cases h.turnover with
    | same hsame => exact .same (htenant.trans hsame)
    | filled i a hlast hfilled => exact .filled i a hlast (htenant.trans hfilled)

/-- An address that was in no slot comes to be in the one at the end of the idle slots, and the
other slots hold what they held. -/
theorem filled (h : v.Chronicled v' released vacated) (ha : ∀ j, v.tenant j ≠ some a)
    (hi : v'.tenant i = some a) :
    v.idle.getLast? = some i ∧ ∀ j, j ≠ i → v'.tenant j = v.tenant j := by
  cases h.turnover with
  | same htenant =>
      rw [htenant] at hi
      exact absurd hi (ha i)
  | filled k b hlast htenant =>
      rw [htenant, update_apply] at hi
      split at hi
      · rename_i hik
        rw [hik, htenant]
        exact ⟨hlast, fun j hj => update_of_ne hj ..⟩
      · exact absurd hi (ha i)
  | vacated k hk htenant =>
      rw [htenant, update_apply] at hi
      split at hi
      · cases hi
      · exact absurd hi (ha i)

theorem mem_vacated_iff (h : v.Chronicled v' released vacated) (i : Fin n) :
    i ∈ vacated ↔ v'.tenant i = none ∧ (v.tenant i).isSome := by
  have hkept : v'.tenant i = v.tenant i → ¬(v'.tenant i = none ∧ (v.tenant i).isSome) := by
    rintro hsame ⟨hnone, hchunk⟩
    rw [← hsame, hnone] at hchunk
    cases hchunk
  cases h.turnover with
  | same htenant => exact iff_of_false List.not_mem_nil (hkept (congrFun htenant i))
  | filled k b hlast htenant =>
      refine iff_of_false List.not_mem_nil ?_
      rcases eq_or_ne i k with rfl | hik
      · rw [htenant, update_self]
        exact fun hnone => by cases hnone.1
      · exact hkept (by rw [htenant, update_of_ne hik])
  | vacated k hk htenant =>
      rw [List.mem_singleton]
      rcases eq_or_ne i k with rfl | hik
      · exact iff_of_true rfl ⟨by rw [htenant, update_self], hk⟩
      · exact iff_of_false hik (hkept (by rw [htenant, update_of_ne hik]))

end Chronicled

end View

end ChunkCache
