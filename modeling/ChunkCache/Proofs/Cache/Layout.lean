import ChunkCache.Cache.Release
import ChunkCache.Proofs.SlotQueue

namespace ChunkCache.Cache

variable {sizing : Sizing} {c c' c'' : Cache sizing} {i j k : Fin sizing.capacity} {a : Address}

def cell? (c : Cache sizing) (slot : Fin sizing.capacity) : Option (Fin sizing.capacity) :=
  (c.slots.get slot).cell

def chainStart (c : Cache sizing) (bucket : Nat) : Option (Fin sizing.capacity) :=
  (c.buckets[bucket]?).join

theorem chainHead_eq (c : Cache sizing) (a : Address) :
    c.chainHead a = c.chainStart (c.bucketOf a) := rfl

theorem slots_emptyWith (hash : Address → UInt64) (i : Fin sizing.capacity) :
    (emptyWith sizing hash).slots.get i = {} := by
  change (Vector.replicate sizing.capacity ({} : Slot sizing.capacity))[i] = {}
  simp

section SetSlot

variable {f : Slot sizing.capacity → Slot sizing.capacity}

theorem slots_setSlot :
    (c.setSlot i f).slots.get j = if i = j then f (c.slots.get i) else c.slots.get j := by
  change (c.slots.set i (f (c.slots.get i)) i.isLt)[j] = if i = j then _ else c.slots[j]
  simp only [Fin.getElem_fin, Vector.getElem_set, Fin.ext_iff]

theorem tenant?_setSlot :
    (c.setSlot i f).tenant? j = if i = j then (f (c.slots.get i)).tenant else c.tenant? j := by
  simp only [tenant?, slots_setSlot]
  split <;> rfl

theorem mark_setSlot :
    (c.setSlot i f).mark j = if i = j then (f (c.slots.get i)).mark else c.mark j := by
  simp only [mark, slots_setSlot]
  split <;> rfl

theorem cell?_setSlot :
    (c.setSlot i f).cell? j = if i = j then (f (c.slots.get i)).cell else c.cell? j := by
  simp only [cell?, slots_setSlot]
  split <;> rfl

theorem next?_setSlot :
    (c.setSlot i f).next? j = if i = j then (f (c.slots.get i)).next else c.next? j := by
  simp only [next?, slots_setSlot]
  split <;> rfl

end SetSlot

theorem bucketOf_of_hash (h : c'.hash = c.hash) : c'.bucketOf = c.bucketOf := by
  funext a
  rw [bucketOf, bucketOf, h]

/-- Two caches differ at most in marks, queues and the payloads that lie in filled cells. -/
structure SameLayout (c c' : Cache sizing) : Prop where
  tenant : c'.tenant? = c.tenant?
  cell : c'.cell? = c.cell?
  next : c'.next? = c.next?
  buckets : c'.buckets = c.buckets
  hash : c'.hash = c.hash
  vacant : c'.pool.vacant = c.pool.vacant
  filled : ∀ k, (c'.pool.get? k).isSome = (c.pool.get? k).isSome

namespace SameLayout

theorem refl (c : Cache sizing) : SameLayout c c :=
  ⟨rfl, rfl, rfl, rfl, rfl, rfl, fun _ => rfl⟩

theorem trans (h : SameLayout c c') (h' : SameLayout c' c'') : SameLayout c c'' where
  tenant := h'.tenant.trans h.tenant
  cell := h'.cell.trans h.cell
  next := h'.next.trans h.next
  buckets := h'.buckets.trans h.buckets
  hash := h'.hash.trans h.hash
  vacant := h'.vacant.trans h.vacant
  filled k := (h'.filled k).trans (h.filled k)

theorem setMark (f : Slot sizing.capacity → Int) :
    SameLayout c (c.setSlot i fun s => { s with mark := f s }) where
  tenant := by
    funext j
    rw [tenant?_setSlot]
    split <;> simp_all [tenant?]
  cell := by
    funext j
    rw [cell?_setSlot]
    split <;> simp_all [cell?]
  next := by
    funext j
    rw [next?_setSlot]
    split <;> simp_all [next?]
  buckets := rfl
  hash := rfl
  vacant := rfl
  filled _ := rfl

theorem setQueues (idle pending : SlotQueue sizing.capacity) :
    SameLayout c { c with idle, pending } :=
  ⟨rfl, rfl, rfl, rfl, rfl, rfl, fun _ => rfl⟩

end SameLayout

section Retain

theorem sameLayout_retain : SameLayout c (c.retain i) := by
  unfold retain
  split
  · exact (SameLayout.setMark _).trans (.setQueues _ _)
  · exact .setMark _

@[simp] theorem pool_retain : (c.retain i).pool = c.pool := by
  unfold retain
  split <;> rfl

@[simp] theorem pending_retain : (c.retain i).pending = c.pending := by
  unfold retain
  split <;> rfl

theorem mark_retain : (c.retain i).mark j = c.mark j + if i = j then 1 else 0 := by
  have hmark : (c.retain i).mark j =
      (c.setSlot i fun s => { s with mark := s.mark + 1 }).mark j := by
    unfold retain
    split <;> rfl
  rw [hmark, mark_setSlot]
  split
  · rename_i hij
    subst hij
    rfl
  · simp

theorem idle_retain :
    (c.retain i).idle = if c.mark i = 0 then (c.idle.erase i).2 else c.idle := by
  unfold retain
  split <;> rfl

end Retain

section Release

theorem release_of_nonpos (h : c.mark i ≤ 0) : c.release i = (c.mark i, c) := by
  simp [release, h]

theorem sameLayout_release : SameLayout c (c.release i).2 := by
  unfold release
  simp only
  split
  · exact .refl c
  · split
    · exact (SameLayout.setMark fun _ => c.mark i - 1).trans (.setQueues _ _)
    · exact SameLayout.setMark fun _ => c.mark i - 1

@[simp] theorem pool_release : (c.release i).2.pool = c.pool := by
  unfold release
  simp only
  split
  · rfl
  · split <;> rfl

@[simp] theorem pending_release : (c.release i).2.pending = c.pending := by
  unfold release
  simp only
  split
  · rfl
  · split <;> rfl

theorem mark_release (h : 0 < c.mark i) :
    (c.release i).2.mark j = c.mark j - if i = j then 1 else 0 := by
  have hmark : (c.release i).2.mark j =
      (c.setSlot i fun s => { s with mark := c.mark i - 1 }).mark j := by
    unfold release
    simp only [Int.not_le.2 h, if_false]
    split <;> rfl
  rw [hmark, mark_setSlot]
  split
  · rename_i hij
    subst hij
    rfl
  · simp

theorem idle_release (h : 0 < c.mark i) :
    (c.release i).2.idle = if c.mark i = 1 then (c.idle.pushFront i).2 else c.idle := by
  unfold release
  simp only [Int.not_le.2 h, if_false]
  split <;> rfl

end Release

section QueueForSave

theorem queueForSave_of_pending (h : c.pending.contains i = true) : c.queueForSave i = c := by
  simp [queueForSave, SlotQueue.pushFront, h]

theorem queueForSave_of_not_pending (h : c.pending.contains i = false) :
    c.queueForSave i = { c with pending := (c.pending.pushFront i).2 }.retain i := by
  simp [queueForSave, SlotQueue.pushFront, h]

end QueueForSave

end ChunkCache.Cache
