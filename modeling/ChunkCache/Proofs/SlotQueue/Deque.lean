import ChunkCache.Proofs.SlotQueue

namespace ChunkCache.SlotQueue

variable {n : Nat} {q : SlotQueue n} {l : List (Fin n)}

/-- What callers do to a queue. -/
inductive Action (n : Nat) where
  | pushFront (slot : Fin n)
  | pushFrontIf (slot : Fin n) (wanted : Bool)
  | pushBack (slot : Fin n)
  | erase (slot : Fin n)
  | eraseIf (slot : Fin n) (wanted : Bool)
  | popBack

inductive Answer (n : Nat) where
  /-- Whether the slot came in or was taken out. -/
  | moved (slotMoved : Bool)
  | popped (slot : Option (Fin n))
  deriving DecidableEq

namespace Action

/-- The answer to an action and the queue after it. -/
def on : Action n → SlotQueue n → Except Failure (Answer n × SlotQueue n)
  | pushFront slot, q => .ok ((q.pushFront slot).map .moved id)
  | pushFrontIf slot wanted, q => (q.pushFrontIf slot wanted).map (Prod.map .moved id)
  | pushBack slot, q => .ok ((q.pushBack slot).map .moved id)
  | erase slot, q => .ok ((q.erase slot).map .moved id)
  | eraseIf slot wanted, q => (q.eraseIf slot wanted).map (Prod.map .moved id)
  | popBack, q =>
    match q.popBack with
    | some (slot, q) => .ok (.popped (some slot), q)
    | none => .ok (.popped none, q)

/-- The answer of a list, the front of the queue first, and the list after the action. -/
def onList : Action n → List (Fin n) → Answer n × List (Fin n)
  | pushFront slot, l => if l.contains slot then (.moved false, l) else (.moved true, slot :: l)
  | pushFrontIf slot wanted, l =>
    if !wanted || l.contains slot then (.moved false, l) else (.moved true, slot :: l)
  | pushBack slot, l => if l.contains slot then (.moved false, l) else (.moved true, l ++ [slot])
  | erase slot, l => if l.contains slot then (.moved true, l.erase slot) else (.moved false, l)
  | eraseIf slot wanted, l =>
    if wanted && l.contains slot then (.moved true, l.erase slot) else (.moved false, l)
  | popBack, l => (.popped l.getLast?, l.dropLast)

end Action

/-- The answers to some actions, the first one first, and the queue after them. -/
def run (q : SlotQueue n) : List (Action n) → Except Failure (List (Answer n) × SlotQueue n)
  | [] => .ok ([], q)
  | action :: actions => do
    let (answer, q) ← action.on q
    let (answers, q) ← q.run actions
    .ok (answer :: answers, q)

/-- The answers of a list to some actions, and the list after them. -/
def replay (l : List (Fin n)) : List (Action n) → List (Answer n) × List (Fin n)
  | [] => ([], l)
  | action :: actions =>
    let (answer, l) := action.onList l
    let (answers, l) := replay l actions
    (answer :: answers, l)

/-- A queue answers as a list does. The walks along its links, from the front and from the back,
come to an end. -/
structure Refines (q : SlotQueue n) (l : List (Fin n)) : Prop where
  nodup : l.Nodup
  size_eq : q.size = l.length
  isEmpty_iff : q.isEmpty = true ↔ l = []
  contains_iff : ∀ slot, q.contains slot = true ↔ slot ∈ l
  toList_eq : q.toList = l
  forward : Chain q.after q.front l
  backward : Chain q.before q.back l.reverse

/-- The queue that is created. -/
def initial (n : Nat) (withAll : Bool) : SlotQueue n := if withAll then full n else empty n

/-- The slots of the queue that is created, the last one at the front. -/
def initialList (n : Nat) (withAll : Bool) : List (Fin n) :=
  if withAll then (List.finRange n).reverse else []

theorem create_eq_ok_iff {withAll : Bool} :
    create n withAll = .ok q ↔ n ≤ Violation.maxPlaces ∧ q = initial n withAll := by
  unfold create
  split
  · exact iff_of_false (fun h => by cases h) fun h => absurd h.1 (Nat.not_le.2 ‹_›)
  · rw [Except.ok.injEq, eq_comm]
    exact (and_iff_right (Nat.not_lt.1 ‹_›)).symm

/-- An action on a queue gives the answer that it gives on a list, and leaves a queue of the list
that it leaves. -/
def Action.Agrees (action : Action n) (q : SlotQueue n) (l : List (Fin n)) : Prop :=
  ∃ q', action.on q = .ok ((action.onList l).1, q') ∧ q'.Holds (action.onList l).2

theorem slot?_val (slot : Fin n) : slot? n slot = .ok slot := dif_pos slot.isLt

theorem onList_pushFrontIf (slot : Fin n) (l : List (Fin n)) :
    (Action.pushFrontIf slot true).onList l = (Action.pushFront slot).onList l := by
  simp only [Action.onList, Bool.not_true, Bool.false_or]

theorem onList_eraseIf (slot : Fin n) (l : List (Fin n)) :
    (Action.eraseIf slot true).onList l = (Action.erase slot).onList l := by
  simp only [Action.onList, Bool.true_and]

namespace Holds

theorem initial (n : Nat) (withAll : Bool) : (initial n withAll).Holds (initialList n withAll) := by
  cases withAll with
  | true => exact holds_full
  | false => exact holds_empty

theorem contains_eq (h : q.Holds l) (slot : Fin n) : l.contains slot = q.contains slot := by
  rw [Bool.eq_iff_iff, List.contains_iff_mem, h.contains_iff]

/-- A slot comes in at one of the ends, unless it is queued. -/
theorem agrees_push {action : Action n} {slot : Fin n} {r : Bool × SlotQueue n} {l' : List (Fin n)}
    (h : q.Holds l) (hon : action.on q = .ok (r.map .moved id))
    (honList : action.onList l = if l.contains slot then (.moved false, l) else (.moved true, l'))
    (hr : r = if q.contains slot then (false, q) else (true, r.2))
    (hpush : slot ∉ l → r.2.Holds l') : action.Agrees q l := by
  rw [Action.Agrees, hon, honList, h.contains_eq, hr]
  split
  · exact ⟨q, rfl, h⟩
  · exact ⟨r.2, rfl, hpush (mt (h.contains_iff slot).2 ‹_›)⟩

theorem agrees_pushFront (h : q.Holds l) (slot : Fin n) : (Action.pushFront slot).Agrees q l := by
  refine h.agrees_push rfl rfl ?_ h.pushFront
  unfold SlotQueue.pushFront
  split <;> rfl

theorem agrees_pushBack (h : q.Holds l) (slot : Fin n) : (Action.pushBack slot).Agrees q l := by
  refine h.agrees_push rfl rfl ?_ h.pushBack
  unfold SlotQueue.pushBack
  split <;> rfl

theorem agrees_erase (h : q.Holds l) (slot : Fin n) : (Action.erase slot).Agrees q l := by
  have hanswer : (q.erase slot).1 = q.contains slot := fst_erase ..
  have herase := h.erase_list (i := slot)
  rw [Action.Agrees, Action.on, Prod.map, hanswer, Action.onList, h.contains_eq]
  cases hqueued : q.contains slot with
  | true => exact ⟨(q.erase slot).2, rfl, herase⟩
  | false =>
      have hslot : slot ∉ l := mt (h.contains_iff slot).2 (ne_true_of_eq_false hqueued)
      rw [List.erase_of_not_mem hslot] at herase
      exact ⟨(q.erase slot).2, rfl, herase⟩

theorem agrees_popBack (h : q.Holds l) : Action.popBack.Agrees q l := by
  cases hpop : q.popBack with
  | none =>
      obtain rfl := h.popBack_eq_none.1 hpop
      refine ⟨q, ?_, h⟩
      rw [Action.on, hpop]
      rfl
  | some r =>
      obtain ⟨slot, q'⟩ := r
      obtain ⟨l', rfl, h'⟩ := h.popBack hpop
      refine ⟨q', ?_, ?_⟩
      · rw [Action.on, hpop, Action.onList, List.getLast?_concat]
      · rwa [Action.onList, List.dropLast_concat]

/-- What one action preserves. A conditional one whose condition holds does what the other one of
its kind does. -/
theorem agrees (h : q.Holds l) (action : Action n) : action.Agrees q l := by
  cases action with
  | pushFront slot => exact h.agrees_pushFront slot
  | pushBack slot => exact h.agrees_pushBack slot
  | erase slot => exact h.agrees_erase slot
  | popBack => exact h.agrees_popBack
  | pushFrontIf slot wanted =>
      cases wanted with
      | false => exact ⟨q, rfl, h⟩
      | true =>
          rw [Action.Agrees, onList_pushFrontIf, Action.on, pushFrontIf, if_pos rfl, slot?_val]
          exact h.agrees_pushFront slot
  | eraseIf slot wanted =>
      cases wanted with
      | false => exact ⟨q, rfl, h⟩
      | true =>
          rw [Action.Agrees, onList_eraseIf, Action.on, eraseIf, if_pos rfl, slot?_val]
          exact h.agrees_erase slot

/-- What a run preserves. It asks nothing of the links of slots that are not in the list, so what
was left in them is never read. -/
theorem run (h : q.Holds l) (actions : List (Action n)) :
    ∃ q', q.run actions = .ok ((replay l actions).1, q') ∧ q'.Holds (replay l actions).2 := by
  induction actions generalizing q l with
  | nil => exact ⟨q, rfl, h⟩
  | cons action actions ih =>
      obtain ⟨q₁, hon, h₁⟩ := h.agrees action
      obtain ⟨q₂, hrun, h₂⟩ := ih h₁
      refine ⟨q₂, ?_, h₂⟩
      rw [SlotQueue.run, hon, replay]
      change q₁.run actions >>= _ = _
      rw [hrun]
      rfl

theorem refines (h : q.Holds l) : q.Refines l where
  nodup := h.nodup
  size_eq := h.size_eq
  isEmpty_iff := by rw [isEmpty, decide_eq_true_eq, h.size_eq, List.length_eq_zero_iff]
  contains_iff := h.contains_iff
  toList_eq := h.toList_eq
  forward := h.forward
  backward := h.backward

end Holds

/-- A queue of any number of slots that an array can have is created, empty or with all slots in it.
Whatever is done to it then, it is never aborted, every answer is that of a list without duplicates,
and the queue that is left refines the list that is left. -/
theorem refines_deque (n : Nat) (withAll : Bool) (actions : List (Action n)) :
    let r := replay (initialList n withAll) actions
    (∀ q, create n withAll = .ok q ↔ n ≤ Violation.maxPlaces ∧ q = initial n withAll) ∧
      ∃ q, (initial n withAll).run actions = .ok (r.1, q) ∧ q.Refines r.2 := by
  intro r
  obtain ⟨q, hrun, h⟩ := (Holds.initial n withAll).run actions
  exact ⟨fun q => create_eq_ok_iff, q, hrun, h.refines⟩

/-- Slots that come in at the back are the next ones to be taken out. -/
example :
    let q := (empty 4).run [.pushBack 2, .pushFront 1, .pushBack 3, .pushFrontIf 0 false, .popBack]
    q.map (fun r => (r.1, r.2.toList)) =
      .ok ([.moved true, .moved true, .moved true, .moved false, .popped (some 3)], [1, 2]) := by
  rfl

end ChunkCache.SlotQueue
