import Mathlib.Logic.Function.Basic
import Mathlib.Data.List.Nodup
import ChunkCache.Cache

/-!
What a cache holds, without its index, its pool and the links of its queues: for every slot the
address, the mark and the payload, and the two queues as lists. Every operation of a cache is a
short run of the effects given here.
-/

namespace ChunkCache

open Function

/-- The contents of `n` slots. The slot that became idle last is at the start of its list, and so
is the slot queued last. -/
structure View (n : Nat) where
  tenant : Fin n → Option Address
  mark : Fin n → Int
  payload : Fin n → Option Payload
  idle : List (Fin n)
  pending : List (Fin n)
  hash : Address → UInt64

inductive Effect (n : Nat) where
  | retain (slot : Fin n) (a : Address)
  | release (slot : Fin n) (a : Address)
  | queue (slot : Fin n)
  | write (slot : Fin n) (a : Address) (payload : Payload)
  | occupy (slot : Fin n) (a : Address) (payload : Payload)
  | vacate (slot : Fin n) (a : Address)
  | requeue (slot : Fin n)
  | save

namespace Payload

def admitted (p : Payload) : Payload := (p.listen true).forgetNotices

def saved (p : Payload) : Payload := (p.mapTracker Tracker.clear).forgetNotices

/-- The payload without its dirty flag and its listener. -/
def bare (p : Payload) : Payload := p.mapTracker fun _ => {}

theorem bare_mapTracker (f : Tracker → Tracker) (p : Payload) : (p.mapTracker f).bare = p.bare := by
  cases p <;> rfl

theorem bare_saved (p : Payload) : p.saved.bare = p.bare := by
  rw [saved, forgetNotices, bare_mapTracker, bare_mapTracker]

@[simp] theorem notices_forgetNotices (p : Payload) : p.forgetNotices.tracker.notices = 0 := by
  simp [forgetNotices]

theorem notices_admitted (p : Payload) : p.admitted.tracker.notices = 0 :=
  notices_forgetNotices _

@[simp] theorem isDirty_forgetNotices (p : Payload) : p.forgetNotices.isDirty = p.isDirty := by
  simp [isDirty, forgetNotices]

@[simp] theorem isDirty_admitted (p : Payload) : p.admitted.isDirty = p.isDirty := by
  simp [admitted, isDirty, listen, forgetNotices, Tracker.listen]

end Payload

namespace View

variable {n : Nat} {v v' v'' : View n} {i j : Fin n} {a : Address} {p : Payload}
variable {e : Effect n} {es es' : List (Effect n)}

instance (i : Fin n) (l : List (Fin n)) : Decidable (i ∈ l) := inferInstance

/-- No slot holds a chunk, and the first one is idle the longest. -/
def empty (n : Nat) (hash : Address → UInt64) : View n where
  tenant _ := none
  mark _ := 0
  payload _ := none
  idle := (List.finRange n).reverse
  pending := []
  hash := hash

def retain (v : View n) (i : Fin n) : View n :=
  { v with
    mark := update v.mark i (v.mark i + 1)
    idle := if v.mark i = 0 then v.idle.erase i else v.idle }

def release (v : View n) (i : Fin n) : View n :=
  if v.mark i ≤ 0 then v
  else
    { v with
      mark := update v.mark i (v.mark i - 1)
      idle := if v.mark i = 1 then i :: v.idle else v.idle }

def queue (v : View n) (i : Fin n) : View n :=
  if i ∈ v.pending then v else { v with pending := i :: v.pending }.retain i

def write (v : View n) (i : Fin n) (p : Payload) : View n :=
  { v with payload := update v.payload i (some p) }

def occupy (v : View n) (i : Fin n) (a : Address) (p : Payload) : View n :=
  { v with
    tenant := update v.tenant i (some a)
    mark := update v.mark i 1
    payload := update v.payload i (some p)
    idle := v.idle.erase i }

def vacate (v : View n) (i : Fin n) : View n where
  tenant := update v.tenant i none
  mark := update v.mark i 0
  payload := update v.payload i none
  idle := v.idle ++ [i]
  pending := v.pending.erase i
  hash := v.hash

/-- Let a queued slot be the one queued last. -/
def requeue (v : View n) (i : Fin n) : View n := { v with pending := i :: v.pending.erase i }

def clean (v : View n) (i : Fin n) : View n :=
  { v with payload := update v.payload i ((v.payload i).map Payload.saved) }

def record (v : View n) (i : Fin n) : Option (Bytes × Bytes) :=
  (v.tenant i).bind fun a => (v.payload i).map fun p => (a.toKey, p.encode)

/-- What a save writes, the slot queued first at the start. -/
def records (v : View n) : List (Bytes × Bytes) := v.pending.reverse.filterMap v.record

def save (v : View n) : View n :=
  v.pending.reverse.foldl release (v.pending.reverse.foldl clean { v with pending := [] })

/-- What has to be true before an effect. -/
def Allows (v : View n) : Effect n → Prop
  | .retain i a => v.tenant i = some a
  | .release i a => v.tenant i = some a
  | .queue _ => True
  | .write i a _ => v.tenant i = some a
  | .occupy i a _ => v.idle.getLast? = some i ∧ ∀ j, v.tenant j ≠ some a
  | .vacate i a => v.tenant i = some a ∧ v.mark i = if i ∈ v.pending then 2 else 1
  | .requeue i => i ∈ v.pending
  | .save => True

def after (v : View n) : Effect n → View n
  | .retain i _ => v.retain i
  | .release i _ => v.release i
  | .queue i => v.queue i
  | .write i _ p => v.write i p
  | .occupy i a p => v.occupy i a p
  | .vacate i _ => v.vacate i
  | .requeue i => v.requeue i
  | .save => v.save

/-- The slot of a handle still holds the chunk of its address. -/
def Current (v : View n) (t : Handle) (i : Fin n) : Prop :=
  i.val = t.slot ∧ v.tenant i = some t.address

/-- The effects happen one after the other and lead from `v` to `v'`. -/
def Run (v : View n) : List (Effect n) → View n → Prop
  | [], v' => v' = v
  | e :: es, v' => v.Allows e ∧ (v.after e).Run es v'

namespace Run

theorem single (h : v.Allows e) : v.Run [e] (v.after e) := ⟨h, rfl⟩

theorem append (h : v.Run es v') (h' : v'.Run es' v'') : v.Run (es ++ es') v'' := by
  induction es generalizing v with
  | nil =>
      cases h
      exact h'
  | cons e es ih => exact ⟨h.1, ih h.2⟩

/-- What every effect preserves holds after a run. -/
theorem preserves {motive : View n → Prop} (h : v.Run es v') (hv : motive v)
    (hstep : ∀ (v : View n) e, v.Allows e → motive v → motive (v.after e)) : motive v' := by
  induction es generalizing v with
  | nil =>
      cases h
      exact hv
  | cons e es ih => exact ih h.2 (hstep v e h.1 hv)

end Run

@[simp] theorem tenant_queue : (v.queue i).tenant = v.tenant := by
  unfold queue
  split <;> rfl

@[simp] theorem payload_queue : (v.queue i).payload = v.payload := by
  unfold queue
  split <;> rfl

theorem mem_pending_queue : j ∈ (v.queue i).pending ↔ j = i ∨ j ∈ v.pending := by
  unfold queue
  split
  · rename_i hi
    refine ⟨.inr, ?_⟩
    rintro (rfl | hj)
    · exact hi
    · exact hj
  · exact List.mem_cons

/-- A release changes marks and idle slots only. -/
theorem release_eq : v.release i =
    { v with mark := (v.release i).mark, idle := (v.release i).idle } := by
  unfold release
  split <;> rfl

@[simp] theorem tenant_release : (v.release i).tenant = v.tenant := by rw [release_eq]

@[simp] theorem payload_release : (v.release i).payload = v.payload := by rw [release_eq]

@[simp] theorem pending_release : (v.release i).pending = v.pending := by rw [release_eq]

@[simp] theorem hash_release : (v.release i).hash = v.hash := by rw [release_eq]

theorem tenant_vacate : (v.vacate i).tenant j = some a ↔ j ≠ i ∧ v.tenant j = some a := by
  change update v.tenant i none j = some a ↔ _
  rcases eq_or_ne j i with rfl | hij
  · simp
  · simp [hij]

theorem mark_retain : (v.retain i).mark j = v.mark j + if j = i then 1 else 0 := by
  rcases eq_or_ne j i with rfl | hij
  · simp [retain]
  · simp [retain, hij]

section Save

variable {l : List (Fin n)}

theorem mark_release :
    (v.release i).mark j = if j = i ∧ 0 < v.mark i then v.mark j - 1 else v.mark j := by
  unfold release
  split
  · rw [if_neg]
    omega
  · rcases eq_or_ne j i with rfl | hij
    · simp only [update_self, true_and]
      rw [if_pos (by omega)]
    · simp [hij]

theorem hash_releaseAll : (l.foldl release v).hash = v.hash := by
  induction l generalizing v with
  | nil => rfl
  | cons i l ih =>
      rw [List.foldl_cons, ih, hash_release]

theorem tenant_releaseAll : (l.foldl release v).tenant = v.tenant := by
  induction l generalizing v with
  | nil => rfl
  | cons i l ih =>
      rw [List.foldl_cons, ih, tenant_release]

theorem payload_releaseAll : (l.foldl release v).payload = v.payload := by
  induction l generalizing v with
  | nil => rfl
  | cons i l ih =>
      rw [List.foldl_cons, ih, payload_release]

theorem pending_releaseAll : (l.foldl release v).pending = v.pending := by
  induction l generalizing v with
  | nil => rfl
  | cons i l ih =>
      rw [List.foldl_cons, ih, pending_release]

/-- Slots that are released once each lose a mark if they have one. -/
theorem mark_releaseAll (hl : l.Nodup) : (l.foldl release v).mark j =
    if j ∈ l ∧ 0 < v.mark j then v.mark j - 1 else v.mark j := by
  induction l generalizing v with
  | nil => simp
  | cons i l ih =>
      rw [List.foldl_cons, ih hl.of_cons, mark_release]
      rcases eq_or_ne j i with rfl | hij
      · have hj : j ∉ l := (List.nodup_cons.1 hl).1
        simp [hj]
      · simp [hij]

theorem record_clean : (v.clean i).record j = v.record j := by
  unfold record clean
  simp only
  rcases eq_or_ne j i with rfl | hij
  · rw [update_self]
    cases v.payload j with
    | none => rfl
    | some p => simp [Payload.saved, Payload.forgetNotices]
  · rw [update_of_ne hij]

theorem cleanAll_eq : l.foldl clean v = { v with payload := (l.foldl clean v).payload } := by
  induction l generalizing v with
  | nil => rfl
  | cons i l ih =>
      rw [List.foldl_cons, ih]
      rfl

theorem payload_cleanAll (hl : l.Nodup) : (l.foldl clean v).payload j =
    if j ∈ l then (v.payload j).map Payload.saved else v.payload j := by
  induction l generalizing v with
  | nil => simp
  | cons i l ih =>
      rw [List.foldl_cons, ih hl.of_cons]
      rcases eq_or_ne j i with rfl | hij
      · have hj : j ∉ l := (List.nodup_cons.1 hl).1
        simp [hj, clean]
      · simp [hij, clean]

theorem tenant_save : v.save.tenant = v.tenant := by
  rw [save, tenant_releaseAll, cleanAll_eq]

theorem hash_after : (v.after e).hash = v.hash := by
  cases e with
  | save => exact hash_releaseAll.trans (by rw [cleanAll_eq])
  | release i a => exact hash_release
  | queue i =>
      simp only [after, queue]
      split <;> rfl
  | _ => rfl

theorem Run.hash (h : v.Run es v') : v'.hash = v.hash :=
  h.preserves (motive := fun w => w.hash = v.hash) rfl fun _ _ _ h => hash_after.trans h

theorem pending_save : v.save.pending = [] := by
  rw [save, pending_releaseAll, cleanAll_eq]

theorem mark_save (hv : v.pending.Nodup) : v.save.mark j =
    if j ∈ v.pending ∧ 0 < v.mark j then v.mark j - 1 else v.mark j := by
  rw [save, mark_releaseAll (List.nodup_reverse.2 hv), cleanAll_eq]
  simp

theorem payload_save (hv : v.pending.Nodup) : v.save.payload j =
    if j ∈ v.pending then (v.payload j).map Payload.saved else v.payload j := by
  rw [save, payload_releaseAll, payload_cleanAll (List.nodup_reverse.2 hv)]
  simp

end Save

/-- Marks count references, the idle slots are those without one, and no address has two slots. -/
structure Tidy (v : View n) : Prop where
  distinct : ∀ {i j a}, v.tenant i = some a → v.tenant j = some a → i = j
  nonneg : ∀ i, 0 ≤ v.mark i
  mem_idle : ∀ {i}, i ∈ v.idle ↔ v.mark i = 0
  idle : v.idle.Nodup
  pending : v.pending.Nodup

namespace Tidy

theorem empty {hash : Address → UInt64} : (View.empty n hash).Tidy where
  distinct h := by cases h
  nonneg _ := Int.le_refl 0
  mem_idle := by simp [View.empty]
  idle := List.nodup_reverse.2 (List.nodup_finRange n)
  pending := List.nodup_nil

theorem retain (h : v.Tidy) : (v.retain i).Tidy where
  distinct := h.distinct
  nonneg j := by
    have hj := h.nonneg j
    rcases eq_or_ne j i with rfl | hij
    · simp only [View.retain, update_self]
      omega
    · simpa [View.retain, hij] using hj
  mem_idle {j} := by
    have hi := h.nonneg i
    simp only [View.retain]
    rcases eq_or_ne j i with rfl | hij
    · rw [update_self]
      split
      · simp only [h.idle.mem_erase_iff, ne_eq, not_true_eq_false, false_and, false_iff]
        omega
      · rw [h.mem_idle]
        omega
    · rw [update_of_ne hij]
      split
      · rw [h.idle.mem_erase_iff, h.mem_idle]
        exact and_iff_right hij
      · exact h.mem_idle
  idle := by
    simp only [View.retain]
    split
    · exact h.idle.erase i
    · exact h.idle
  pending := h.pending

theorem release (h : v.Tidy) : (v.release i).Tidy := by
  unfold View.release
  split
  · exact h
  rename_i hmark
  constructor
  · exact h.distinct
  · intro j
    rcases eq_or_ne j i with rfl | hij
    · simp only [update_self]
      omega
    · simpa [hij] using h.nonneg j
  · intro j
    rcases eq_or_ne j i with rfl | hij
    · simp only [update_self]
      split
      · simp
        omega
      · rw [h.mem_idle]
        omega
    · simp only [update_of_ne hij]
      split
      · simp [hij, h.mem_idle]
      · exact h.mem_idle
  · simp only
    split
    · refine List.nodup_cons.2 ⟨?_, h.idle⟩
      rw [h.mem_idle]
      omega
    · exact h.idle
  · exact h.pending

theorem queue (h : v.Tidy) : (v.queue i).Tidy := by
  unfold View.queue
  split
  · exact h
  · rename_i hi
    refine Tidy.retain ⟨h.distinct, h.nonneg, h.mem_idle, h.idle, ?_⟩
    exact List.nodup_cons.2 ⟨hi, h.pending⟩

theorem write (h : v.Tidy) : (v.write i p).Tidy :=
  ⟨h.distinct, h.nonneg, h.mem_idle, h.idle, h.pending⟩

theorem occupy (h : v.Tidy) (ha : ∀ j, v.tenant j ≠ some a) : (v.occupy i a p).Tidy where
  distinct {j k b} hj hk := by
    simp only [View.occupy, update_apply] at hj hk
    split at hj <;> split at hk
    · simp_all
    · cases hj
      exact absurd hk (ha k)
    · cases hk
      exact absurd hj (ha j)
    · exact h.distinct hj hk
  nonneg j := by
    rcases eq_or_ne j i with rfl | hij
    · simp [View.occupy]
    · simpa [View.occupy, hij] using h.nonneg j
  mem_idle {j} := by
    simp only [View.occupy]
    rw [h.idle.mem_erase_iff]
    rcases eq_or_ne j i with rfl | hij
    · simp
    · simp [hij, h.mem_idle]
  idle := h.idle.erase i
  pending := h.pending

theorem vacate (h : v.Tidy) (hi : v.mark i ≠ 0) : (v.vacate i).Tidy where
  distinct hj hk := h.distinct (tenant_vacate.1 hj).2 (tenant_vacate.1 hk).2
  nonneg j := by
    rcases eq_or_ne j i with rfl | hij
    · simp [View.vacate]
    · simpa [View.vacate, hij] using h.nonneg j
  mem_idle {j} := by
    simp only [View.vacate, List.mem_append, List.mem_singleton]
    rcases eq_or_ne j i with rfl | hij
    · simp
    · simp [hij, h.mem_idle]
  idle := by
    refine List.nodup_append.2 ⟨h.idle, by simp, ?_⟩
    rintro j hj k hk rfl
    rw [List.mem_singleton] at hk
    subst hk
    exact hi (h.mem_idle.1 hj)
  pending := h.pending.erase i

theorem requeue (h : v.Tidy) : (v.requeue i).Tidy where
  distinct := h.distinct
  nonneg := h.nonneg
  mem_idle := h.mem_idle
  idle := h.idle
  pending := List.nodup_cons.2 ⟨by simp [h.pending.mem_erase_iff], h.pending.erase i⟩

theorem save (h : v.Tidy) : v.save.Tidy := by
  have hclean : ∀ (l : List (Fin n)) (v : View n), v.Tidy → (l.foldl clean v).Tidy := by
    intro l
    induction l with
    | nil => exact fun v h => h
    | cons i l ih =>
        exact fun v h => ih _ ⟨h.distinct, h.nonneg, h.mem_idle, h.idle, h.pending⟩
  have hrelease : ∀ (l : List (Fin n)) (v : View n), v.Tidy → (l.foldl View.release v).Tidy := by
    intro l
    induction l with
    | nil => exact fun v h => h
    | cons i l ih => exact fun v h => ih _ h.release
  exact hrelease _ _ (hclean _ _ ⟨h.distinct, h.nonneg, h.mem_idle, h.idle, List.nodup_nil⟩)

theorem after (h : v.Tidy) (he : v.Allows e) : (v.after e).Tidy := by
  cases e with
  | retain i a => exact h.retain
  | release i a => exact h.release
  | queue i => exact h.queue
  | write i a p => exact h.write
  | occupy i a p => exact h.occupy he.2
  | vacate i a =>
      refine h.vacate ?_
      rw [he.2]
      split <;> omega
  | requeue i => exact h.requeue
  | save => exact h.save

theorem run (h : v.Tidy) (hrun : v.Run es v') : v'.Tidy :=
  hrun.preserves h fun _ _ he h => h.after he

end Tidy

end View

end ChunkCache
