import ChunkCache.Proofs.View

namespace ChunkCache

open Function

namespace Effect

variable {n : Nat}

/-- The references that are counted after an effect. -/
def post (held : Address → Nat) : Effect n → Address → Nat
  | retain _ a | occupy _ a _ => update held a (held a + 1)
  | release _ a | vacate _ a => update held a (held a - 1)
  | queue _ | write _ _ _ | requeue _ | save => held

/-- The address whose chunk an effect changes. -/
def target : Effect n → Option Address
  | write _ a _ | occupy _ a _ | vacate _ a => some a
  | retain _ _ | release _ _ | queue _ | requeue _ | save => none

/-- An effect that gives marks back. -/
def Returns : Effect n → Prop
  | release _ _ | vacate _ _ | save => True
  | retain _ _ | queue _ | write _ _ _ | occupy _ _ _ | requeue _ => False

end Effect

/-- Every released chunk is referenced when its turn comes. -/
def Covered {n : Nat} : (Address → Nat) → List (Effect n) → Prop
  | _, [] => True
  | held, e :: es => (∀ i a, e = .release i a → 0 < held a) ∧ Covered (e.post held) es

/-- Only the last effect gives marks back. -/
def ReturnsLast {n : Nat} : List (Effect n) → Prop
  | [] => True
  | e :: es => (e.Returns → es = []) ∧ ReturnsLast es

namespace View

variable {n : Nat} {v v' : View n} {i j : Fin n} {a b : Address} {p : Payload}
variable {e : Effect n} {es : List (Effect n)} {held : Address → Nat}

/-- The mark of a pending save. -/
def pin (v : View n) (i : Fin n) : Int := if i ∈ v.pending then 1 else 0

theorem pin_save {i : Fin n} : v.save.pin i = 0 := by
  rw [pin, if_neg]
  rw [pending_save]
  exact List.not_mem_nil

/-- Every mark stands for a reference or for a pending save. -/
structure Exact (v : View n) (held : Address → Nat) : Prop where
  occupied : ∀ {i a}, v.tenant i = some a → v.mark i = held a + v.pin i
  vacant : ∀ {i}, v.tenant i = none → v.mark i = v.pin i
  absent : ∀ {a}, (∀ i, v.tenant i ≠ some a) → held a = 0

/-- An effect takes the mark of a pending save. -/
def TakesPin (v : View n) (e : Effect n) : Prop :=
  ∃ i a, e = .release i a ∧ i ∈ v.pending ∧ v.mark i = 1

namespace Exact

theorem empty {hash : Address → UInt64} : (View.empty n hash).Exact fun _ => 0 where
  occupied h := by cases h
  vacant _ := by simp [pin, View.empty]
  absent _ := rfl

theorem pin_le_mark (h : v.Exact held) : v.pin i ≤ v.mark i := by
  cases hi : v.tenant i with
  | none => exact Int.le_of_eq (h.vacant hi).symm
  | some a =>
      rw [h.occupied hi]
      omega

/-- Another mark of one slot is another number of references to its chunk. -/
theorem recount {m : Nat} (h : v.Exact held) (ht : v.Tidy) (hi : v.tenant i = some a)
    (htenant : v'.tenant = v.tenant) (hpin : ∀ j, v'.pin j = v.pin j)
    (hmark : v'.mark i = m + v.pin i) (hother : ∀ j, j ≠ i → v'.mark j = v.mark j) :
    v'.Exact (update held a m) := by
  constructor
  · intro j b hj
    rw [htenant] at hj
    rcases eq_or_ne j i with rfl | hij
    · obtain rfl := Option.some.inj (hi.symm.trans hj)
      rw [update_self, hpin, hmark]
    · have hab : b ≠ a := by
        rintro rfl
        exact hij (ht.distinct hj hi)
      rw [update_of_ne hab, hpin, hother j hij]
      exact h.occupied hj
  · intro j hj
    rw [htenant] at hj
    have hij : j ≠ i := by
      rintro rfl
      cases hi.symm.trans hj
    rw [hpin, hother j hij]
    exact h.vacant hj
  · intro b hb
    rw [htenant] at hb
    have hab : b ≠ a := by
      rintro rfl
      exact hb i hi
    rw [update_of_ne hab]
    exact h.absent hb

theorem retain (h : v.Exact held) (ht : v.Tidy) (hi : v.tenant i = some a) :
    (v.retain i).Exact (update held a (held a + 1)) := by
  have hmark := h.occupied hi
  refine h.recount ht hi rfl (fun _ => rfl) ?_ fun j hij => ?_
  · rw [mark_retain, if_pos rfl]
    omega
  · rw [mark_retain, if_neg hij, Int.add_zero]

theorem release (h : v.Exact held) (ht : v.Tidy) (hi : v.tenant i = some a)
    (hpin : ¬v.TakesPin (.release i a)) : (v.release i).Exact (update held a (held a - 1)) := by
  have hmark := h.occupied hi
  by_cases hheld : held a = 0
  · have hout : i ∉ v.pending := by
      intro hqueued
      refine hpin ⟨i, a, rfl, hqueued, ?_⟩
      rw [hmark, hheld, pin, if_pos hqueued]
      rfl
    have hzero : v.mark i = 0 := by
      rw [hmark, hheld, pin, if_neg hout]
      rfl
    rw [View.release, if_pos (Int.le_of_eq hzero), hheld, Nat.zero_sub, ← hheld, update_eq_self]
    exact h
  · have hpos : 0 < v.mark i := by
      have hle : 0 ≤ v.pin i := by
        unfold pin
        split <;> omega
      omega
    refine h.recount ht hi tenant_release (fun j => ?_) ?_ fun j hij => ?_
    · rw [pin, pin, pending_release]
    · rw [mark_release, if_pos ⟨rfl, hpos⟩]
      omega
    · rw [mark_release, if_neg fun hand => hij hand.1]

theorem queue (h : v.Exact held) : (v.queue i).Exact held := by
  unfold View.queue
  split
  · exact h
  rename_i hout
  have hpin : ∀ j, ({ v with pending := i :: v.pending }.retain i).pin j =
      v.pin j + if j = i then 1 else 0 := by
    intro j
    simp only [pin, View.retain, List.mem_cons]
    by_cases hij : j = i
    · simp [hij, hout]
    · simp [hij]
  constructor
  · intro j b hj
    have hmark' := h.occupied hj
    rw [mark_retain, hpin]
    change v.mark j + _ = _
    omega
  · intro j hj
    rw [mark_retain, hpin, ← h.vacant hj]
  · exact h.absent

theorem write (h : v.Exact held) : (v.write i p).Exact held :=
  ⟨h.occupied, h.vacant, h.absent⟩

theorem requeue (h : v.Exact held) (hi : i ∈ v.pending) : (v.requeue i).Exact held := by
  have hpin : ∀ j, (v.requeue i).pin j = v.pin j := by
    intro j
    simp only [pin, View.requeue, List.mem_cons]
    by_cases hij : j = i
    · simp [hij, hi]
    · simp [hij, List.mem_erase_of_ne hij]
  constructor
  · intro j b hj
    rw [hpin]
    exact h.occupied hj
  · intro j hj
    rw [hpin]
    exact h.vacant hj
  · exact h.absent

/-- An idle slot is neither referenced nor queued. -/
theorem of_idle (h : v.Exact held) (hi : v.mark i = 0) :
    (∀ a, v.tenant i = some a → held a = 0) ∧ i ∉ v.pending := by
  have hle := h.pin_le_mark (i := i)
  have hout : i ∉ v.pending := by
    intro hqueued
    rw [pin, if_pos hqueued] at hle
    omega
  refine ⟨fun a ha => ?_, hout⟩
  have hmark := h.occupied ha
  rw [hi, pin, if_neg hout] at hmark
  omega

theorem occupy (h : v.Exact held) (hi : v.mark i = 0) (ha : ∀ j, v.tenant j ≠ some a) :
    (v.occupy i a p).Exact (update held a (held a + 1)) := by
  obtain ⟨hfree, hout⟩ := h.of_idle hi
  have hpin : ∀ j, (v.occupy i a p).pin j = v.pin j := fun _ => rfl
  constructor
  · intro j b hj
    change update v.mark i 1 j = _ + v.pin j
    change update v.tenant i (some a) j = some b at hj
    rcases eq_or_ne j i with rfl | hij
    · rw [update_self] at hj
      cases hj
      rw [update_self, update_self, h.absent ha, pin, if_neg hout]
      rfl
    · rw [update_of_ne hij] at hj
      have hab : b ≠ a := by
        rintro rfl
        exact ha j hj
      rw [update_of_ne hij, update_of_ne hab]
      exact h.occupied hj
  · intro j hj
    change update v.tenant i (some a) j = none at hj
    change update v.mark i 1 j = v.pin j
    rcases eq_or_ne j i with rfl | hij
    · rw [update_self] at hj
      cases hj
    · rw [update_of_ne hij] at hj ⊢
      exact h.vacant hj
  · intro b hb
    change ∀ j, update v.tenant i (some a) j ≠ some b at hb
    have hab : b ≠ a := by
      rintro rfl
      exact hb i (update_self ..)
    rw [update_of_ne hab]
    by_cases hold : v.tenant i = some b
    · exact hfree b hold
    · refine h.absent fun j hj => ?_
      have hij : j ≠ i := by
        rintro rfl
        exact hold hj
      exact hb j ((update_of_ne hij ..).trans hj)

theorem vacate (h : v.Exact held) (ht : v.Tidy) (hi : v.tenant i = some a)
    (hmark : v.mark i = if i ∈ v.pending then 2 else 1) :
    held a = 1 ∧ (v.vacate i).Exact (update held a (held a - 1)) := by
  have hheld : held a = 1 := by
    have hoccupied := h.occupied hi
    rw [hmark, pin] at hoccupied
    by_cases hqueued : i ∈ v.pending
    · rw [if_pos hqueued, if_pos hqueued] at hoccupied
      omega
    · rw [if_neg hqueued, if_neg hqueued] at hoccupied
      omega
  have hpin : ∀ j, j ≠ i → (v.vacate i).pin j = v.pin j := by
    intro j hij
    simp [pin, View.vacate, List.mem_erase_of_ne hij]
  refine ⟨hheld, ?_⟩
  constructor
  · intro j b hj
    change update v.mark i 0 j = _
    obtain ⟨hij, hj⟩ := tenant_vacate.1 hj
    have hab : b ≠ a := by
      rintro rfl
      exact hij (ht.distinct hj hi)
    rw [hpin j hij, update_of_ne hij, update_of_ne hab]
    exact h.occupied hj
  · intro j hj
    change update v.mark i 0 j = _
    change update v.tenant i none j = none at hj
    rcases eq_or_ne j i with rfl | hij
    · have hout : j ∉ (v.vacate j).pending := by simp [View.vacate, ht.pending.mem_erase_iff]
      rw [update_self, pin, if_neg hout]
    · rw [update_of_ne hij] at hj
      rw [hpin j hij, update_of_ne hij]
      exact h.vacant hj
  · intro b hb
    rcases eq_or_ne b a with rfl | hab
    · rw [update_self, hheld]
    · rw [update_of_ne hab]
      refine h.absent fun j hj => ?_
      have hij : j ≠ i := by
        rintro rfl
        exact hab (Option.some.inj (hj.symm.trans hi))
      exact hb j (tenant_vacate.2 ⟨hij, hj⟩)

/-- A save takes back exactly the marks of the pending saves. -/
theorem save (h : v.Exact held) (ht : v.Tidy) : v.save.Exact held := by
  have hmark : ∀ j, v.save.mark j = v.mark j - v.pin j := by
    intro j
    have hle := h.pin_le_mark (i := j)
    rw [mark_save ht.pending]
    unfold pin at hle ⊢
    by_cases hj : j ∈ v.pending
    · rw [if_pos hj] at hle
      rw [if_pos hj, if_pos ⟨hj, by omega⟩]
    · rw [if_neg hj, if_neg fun hand => hj hand.1, Int.sub_zero]
  constructor
  · intro j b hj
    rw [tenant_save] at hj
    rw [hmark, pin_save, h.occupied hj]
    omega
  · intro j hj
    rw [tenant_save] at hj
    rw [hmark, pin_save, h.vacant hj]
    omega
  · intro b hb
    rw [tenant_save] at hb
    exact h.absent hb

/-- Every effect that takes no mark of a pending save keeps the marks exact. -/
theorem after (h : v.Exact held) (ht : v.Tidy) (he : v.Allows e) (hpin : ¬v.TakesPin e) :
    (v.after e).Exact (e.post held) := by
  cases e with
  | retain i a => exact h.retain ht he
  | release i a => exact h.release ht he hpin
  | queue i => exact h.queue
  | write i a p => exact h.write
  | occupy i a p =>
      have hi : v.mark i = 0 := ht.mem_idle.1 (List.mem_of_getLast? he.1)
      exact h.occupy hi he.2
  | vacate i a => exact (h.vacate ht he.1 he.2).2
  | requeue i => exact h.requeue he
  | save => exact h.save ht

/-- A reference that is given back is no mark of a pending save. -/
theorem not_takesPin (h : v.Exact held) (he : v.Allows e)
    (hcovered : ∀ i a, e = .release i a → 0 < held a) : ¬v.TakesPin e := by
  rintro ⟨i, a, rfl, hqueued, hmark⟩
  have hheld := hcovered i a rfl
  rw [h.occupied he, pin, if_pos hqueued] at hmark
  omega

theorem run (h : v.Exact held) (ht : v.Tidy) (hrun : v.Run es v') (hcovered : Covered held es) :
    v'.Exact (es.foldl Effect.post held) := by
  induction es generalizing v held with
  | nil =>
      cases hrun
      exact h
  | cons e es ih =>
      obtain ⟨he, hrun⟩ := hrun
      exact ih (h.after ht he (h.not_takesPin he hcovered.1)) (ht.after he) hrun hcovered.2

/-- A chunk that is referenced or queued loses its slot only when it is given up. -/
theorem keeps (h : v.Exact held) (ht : v.Tidy) (he : v.Allows e) (hi : v.tenant i = some a)
    (hneed : 0 < held a ∨ i ∈ v.pending) :
    (v.after e).tenant i = some a ∨ e = .vacate i a := by
  cases e with
  | occupy j b p =>
      have hj : v.mark j = 0 := ht.mem_idle.1 (List.mem_of_getLast? he.1)
      obtain ⟨hfree, hout⟩ := h.of_idle hj
      have hij : i ≠ j := by
        rintro rfl
        rcases hneed with hheld | hqueued
        · exact absurd (hfree a hi) (Nat.pos_iff_ne_zero.1 hheld)
        · exact hout hqueued
      exact .inl ((update_of_ne hij ..).trans hi)
  | vacate j b =>
      rcases eq_or_ne i j with rfl | hij
      · obtain rfl := Option.some.inj (hi.symm.trans he.1)
        exact .inr rfl
      · exact .inl ((update_of_ne hij ..).trans hi)
  | save => exact .inl ((congrFun tenant_save i).trans hi)
  | queue j => exact .inl ((congrFun tenant_queue i).trans hi)
  | release j b =>
      exact .inl ((congrFun tenant_release i).trans hi)
  | _ => exact .inl hi

/-- What is needed stays needed until marks are given back. -/
theorem needed_after (he : ¬e.Returns) (hneed : 0 < held a ∨ i ∈ v.pending) :
    0 < e.post held a ∨ i ∈ (v.after e).pending := by
  rcases hneed with hheld | hqueued
  · left
    have hgrant : ∀ b, 0 < update held b (held b + 1) a := by
      intro b
      by_cases hab : a = b
      · rw [hab, update_self]
        exact Nat.succ_pos _
      · rwa [update_of_ne hab]
    cases e with
    | retain j b => exact hgrant b
    | occupy j b p => exact hgrant b
    | release j b => exact absurd trivial he
    | vacate j b => exact absurd trivial he
    | save => exact absurd trivial he
    | _ => exact hheld
  · right
    cases e with
    | queue j =>
        rw [View.after, View.queue]
        split
        · exact hqueued
        · exact List.mem_cons_of_mem _ hqueued
    | requeue j =>
        by_cases hij : i = j
        · rw [hij]
          exact List.mem_cons_self
        · exact List.mem_cons_of_mem _ ((List.mem_erase_of_ne hij).2 hqueued)
    | release j b => exact absurd trivial he
    | vacate j b => exact absurd trivial he
    | save => exact absurd trivial he
    | _ => exact hqueued

end Exact

/-- The content in a slot, apart from its dirty flag and its listener. -/
def content (v : View n) (i : Fin n) : Option Payload := (v.payload i).map Payload.bare

theorem content_after (he : v.Allows e) (ht : v.Tidy) (hi : v.tenant i = some a)
    (hi' : (v.after e).tenant i = some a) (htarget : e.target ≠ some a) :
    (v.after e).content i = v.content i := by
  cases e with
  | write j b p =>
      have hij : i ≠ j := by
        rintro rfl
        exact htarget (he.symm.trans hi)
      exact congrArg _ (update_of_ne hij ..)
  | occupy j b p =>
      have hij : i ≠ j := by
        rintro rfl
        change update v.tenant i (some b) i = some a at hi'
        rw [update_self] at hi'
        exact htarget hi'
      exact congrArg _ (update_of_ne hij ..)
  | vacate j b =>
      have hij : i ≠ j := by
        rintro rfl
        exact htarget (he.1.symm.trans hi)
      exact congrArg _ (update_of_ne hij ..)
  | save =>
      rw [content, content, View.after, payload_save ht.pending]
      split
      · rw [Option.map_map]
        exact congrArg (Option.map · (v.payload i)) (funext Payload.bare_saved)
      · rfl
  | release j b =>
      exact congrArg (Option.map Payload.bare) (congrFun payload_release i)
  | queue j =>
      exact congrArg (Option.map Payload.bare) (congrFun payload_queue i)
  | _ => rfl

/-- A run of effects in which marks are given back last keeps every chunk that is referenced or
queued, and the content of those that it is not about. -/
theorem Exact.keeps_run (h : v.Exact held) (ht : v.Tidy) (hrun : v.Run es v')
    (hlast : ReturnsLast es) (hi : v.tenant i = some a) (hneed : 0 < held a ∨ i ∈ v.pending) :
    .vacate i a ∈ es ∨ v'.tenant i = some a ∧
      ((∀ e ∈ es, e.target ≠ some a) → v'.content i = v.content i) := by
  induction es generalizing v held with
  | nil =>
      cases hrun
      exact .inr ⟨hi, fun _ => rfl⟩
  | cons e es ih =>
      obtain ⟨he, hrun⟩ := hrun
      rcases h.keeps ht he hi hneed with hi' | rfl
      · have hcontent := content_after he ht hi hi'
        by_cases hreturns : e.Returns
        · obtain rfl := hlast.1 hreturns
          cases hrun
          exact .inr ⟨hi', fun htarget => hcontent (htarget e List.mem_cons_self)⟩
        · have hpin : ¬v.TakesPin e := by
            rintro ⟨j, b, rfl, -⟩
            exact hreturns trivial
          rcases ih (h.after ht he hpin) (ht.after he) hrun hlast.2 hi'
            (Exact.needed_after hreturns hneed) with hmem | ⟨hi'', hcontent'⟩
          · exact .inl (List.mem_cons_of_mem _ hmem)
          · refine .inr ⟨hi'', fun htarget => ?_⟩
            rw [hcontent' fun e' he' => htarget e' (List.mem_cons_of_mem _ he')]
            exact hcontent (htarget e List.mem_cons_self)
      · exact .inl List.mem_cons_self

/-- A chunk that is given up last has no slot. -/
theorem Run.tenant_ne_of_vacate (hrun : v.Run es v') (ht : v.Tidy) (hlast : ReturnsLast es)
    (hmem : .vacate i a ∈ es) : v'.tenant j ≠ some a := by
  induction es generalizing v with
  | nil => cases hmem
  | cons e es ih =>
      obtain ⟨he, hrun⟩ := hrun
      rcases List.mem_cons.1 hmem with rfl | hmem
      · obtain rfl := hlast.1 trivial
        cases hrun
        intro hj
        obtain ⟨hij, hj⟩ := tenant_vacate.1 hj
        exact hij (ht.distinct hj he.1)
      · exact ih hrun (ht.after he) hlast.2 hmem

end View

end ChunkCache
