import ChunkCache.Proofs.RowTree.Floor
import ChunkCache.Proofs.RowTree.RedBlack

namespace ChunkCache.RowTree

variable {t t' : RowTree} {i j row pivot : Nat} {k : Int64} {color : Color} {r : Row} {side : Side}
variable {s a b : Shape} {path : Path} {above link : Option Nat} {keys : List Int64}
variable {order order' : List Nat}

/-- The keys in the order in which the links put them. -/
def InOrder (t : RowTree) (keys : List Int64) : Prop :=
  ∃ order, t.Visits t.root order ∧ order.filterMap t.key? = keys

/-- The links are those of a tree in which every row of the array occurs once. -/
structure Linked (t : RowTree) : Prop where
  root : ∀ {i : Nat}, t.root = some i → ∃ r, t.rows[i]? = some r ∧ r.parent = none
  /-- The parent of a child is the row that has this child. -/
  child : ∀ {i j : Nat} {r : Row} {side : Side}, t.rows[i]? = some r → r.child side = some j →
    ∃ q, t.rows[j]? = some q ∧ q.parent = some i
  /-- A row is a child of its parent. -/
  parent : ∀ {i j : Nat} {q : Row}, t.rows[j]? = some q → q.parent = some i →
    ∃ r side, t.rows[i]? = some r ∧ r.child side = some j
  /-- Only the root has no parent. -/
  orphan : ∀ {j : Nat} {q : Row}, t.rows[j]? = some q → q.parent = none → t.root = some j
  visits : ∃ order, t.Visits t.root order ∧ order.Perm (List.range t.size)

/-- A rotation of `row` down to `side`, at which its pivot takes its place. No row that it reads or
writes is absent. -/
structure Turns (t : RowTree) (side : Side) (row pivot : Nat) (t' : RowTree) : Prop where
  rotate : t.rotate side row = some t'
  isChild : t.child? row side.other = some pivot
  row_lt : row < t.size
  pivot_lt : pivot < t.size
  parent_lt : ∀ i, t.parent? row = some i → i < t.size
  inner_lt : ∀ i, t.child? pivot side = some i → i < t.size
  parent_pivot : t'.parent? pivot = t.parent? row
  child_above : ∀ i side', t.child? i side' = some row → t'.child? i side' = some pivot
  child_pivot : t'.child? pivot side = some row
  child_row : t'.child? row side.other = t.child? pivot side
  /-- Children and parents name each other again. -/
  linked : t'.Linked
  /-- No key moves to another row. -/
  keys : t'.keys = t.keys
  inOrder : ∀ keys, t.InOrder keys → t'.InOrder keys

section Visits

theorem Visits.unique (h : t.Visits link order) (h' : t.Visits link order') : order = order' := by
  induction h generalizing order' with
  | absent =>
      cases h'
      rfl
  | row hi hl hr ihl ihr =>
      cases h' with
      | row hi' hl' hr' =>
          obtain rfl := Option.some.inj (hi.symm.trans hi')
          rw [ihl hl', ihr hr']

/-- The rows below a link draw a shape if every child names its parent. -/
theorem Visits.exists_shape (h : t.Visits link order)
    (hchild : ∀ {i j : Nat} {r : Row} {side : Side}, t.rows[i]? = some r → r.child side = some j →
      ∃ q, t.rows[j]? = some q ∧ q.parent = some i)
    (habove : ∀ i, link = some i → ∃ r, t.rows[i]? = some r ∧ r.parent = above) :
    ∃ s : Shape, s.link = link ∧ Lies t.rows above s ∧ s.indices = order := by
  induction h generalizing above with
  | absent => exact ⟨.leaf, rfl, trivial, rfl⟩
  | @row i r before after hi hl hr ihl ihr =>
      have hbelow (side : Side) (j : Nat) (hj : r.child side = some j) :
          ∃ q, t.rows[j]? = some q ∧ q.parent = some i := hchild hi hj
      obtain ⟨l, hlinkL, hliesL, rfl⟩ := ihl (hbelow .left)
      obtain ⟨u, hlinkR, hliesR, rfl⟩ := ihr (hbelow .right)
      obtain ⟨q, hq, rfl⟩ := habove i rfl
      obtain rfl := Option.some.inj (hi.symm.trans hq)
      refine ⟨.node i r.key r.color l u, rfl, ⟨?_, hliesL, hliesR⟩, ?_⟩
      · rw [hi, hlinkL, hlinkR]
      · exact Shape.indices_node

end Visits

namespace Draws

theorem inOrder (h : t.Draws s) : t.InOrder s.keys :=
  ⟨s.indices, h.root ▸ h.lies.visits, h.filterMap_key?⟩

theorem inOrder_unique (h : t.Draws s) (hkeys : t.InOrder keys) : keys = s.keys := by
  obtain ⟨order, hvisits, rfl⟩ := hkeys
  obtain ⟨order', hvisits', hkeys⟩ := h.inOrder
  rw [hvisits.unique hvisits', hkeys]

theorem linked (h : t.Draws s) : t.Linked where
  root hi := by
    have hwhole : t.Draws (Path.plug .top s) := h
    obtain ⟨r, hr, hparent, -⟩ := hwhole.row_of_link (h.root ▸ hi)
    exact ⟨r, hr, hparent⟩
  child := h.child
  parent := h.parent
  orphan := h.orphan
  visits := ⟨s.indices, h.root ▸ h.lies.visits, h.indices⟩

theorem child?_fork (h : t.Draws (path.plug (.fork i k color side a b))) :
    t.child? i side = a.link := by
  rw [child?_eq (lies_fork.1 (lies_plug.1 h.lies).1).1, Row.child_linked]

theorem child?_fork_other (h : t.Draws (path.plug (.fork i k color side a b))) :
    t.child? i side.other = b.link := by
  rw [child?_eq (lies_fork.1 (lies_plug.1 h.lies).1).1, Row.child_other_linked]

/-- A row of which the root of a shape is a child is the one above the shape. -/
theorem exists_under (h : t.Draws (path.plug s)) (hi : s.link = some i)
    (hchild : t.child? j side = some i) :
    ∃ f path', path = .under f path' ∧ f.row = j ∧ f.side = side := by
  obtain ⟨q, hq, hqchild⟩ := Option.bind_eq_some_iff.1 hchild
  obtain ⟨r, hr, hparent⟩ := h.linked.child hq hqchild
  have hpath : t.parent? i = path.parent := parent?_of_link h hi
  rw [parent?_eq hr, hparent] at hpath
  cases path with
  | top => cases hpath
  | under f path =>
      cases hpath
      have hup : t.Draws (path.plug (f.fill s)) := h
      obtain rfl := Option.some.inj ((lies_plug.1 h.lies).2.1.symm.trans hq)
      rw [hi] at hqchild
      have hout := hup.disjoint (Shape.mem_indices_of_link hi)
      exact ⟨f, path, rfl, rfl, (Frame.child_eq_iff hout).1 hqchild⟩

end Draws

theorem RedBlack.linked (h : t.RedBlack) : t.Linked where
  root hi := by
    obtain ⟨r, hr, -, hparent⟩ := h.root hi
    exact ⟨r, hr, hparent⟩
  child := h.child
  parent := h.parent
  orphan := h.orphan
  visits := by
    obtain ⟨order, hvisits, hperm, -⟩ := h.visits
    exact ⟨order, hvisits, hperm⟩

namespace Linked

theorem exists_draws (h : t.Linked) : ∃ s, t.Draws s := by
  obtain ⟨order, hvisits, hperm⟩ := h.visits
  obtain ⟨s, hlink, hlies, rfl⟩ := hvisits.exists_shape h.child fun i hi => h.root hi
  exact ⟨s, hlink.symm, hlies, hperm⟩

theorem lt_of_child? (h : t.Linked) (hchild : t.child? i side = some j) :
    i < t.size ∧ j < t.size := by
  obtain ⟨r, hr, hlink⟩ := Option.bind_eq_some_iff.1 hchild
  obtain ⟨q, hq, -⟩ := h.child hr hlink
  exact ⟨(Array.getElem?_eq_some_iff.1 hr).1, (Array.getElem?_eq_some_iff.1 hq).1⟩

theorem lt_of_parent? (h : t.Linked) (hparent : t.parent? j = some i) : i < t.size := by
  obtain ⟨q, hq, hlink⟩ := Option.bind_eq_some_iff.1 hparent
  obtain ⟨r, -, hr, -⟩ := h.parent hq hlink
  exact (Array.getElem?_eq_some_iff.1 hr).1

/-- A row and its pivot in the shape that the links draw. -/
theorem exists_pivot (h : t.Linked) (hpivot : t.child? row side.other = some pivot) :
    ∃ path k k' color color' a b c, t.Draws
      (Path.plug path (.fork row k color side a (.fork pivot k' color' side b c))) := by
  obtain ⟨s, hdraws⟩ := h.exists_draws
  obtain ⟨r, hr, hlink⟩ := Option.bind_eq_some_iff.1 hpivot
  obtain ⟨path, a, b, rfl, hchild⟩ := hdraws.exists_fork hr side.other
  rw [hlink] at hchild
  cases a with
  | leaf => cases hchild
  | node j k color l u =>
      cases hchild
      obtain ⟨f, near, hfill, rfl, rfl, rfl⟩ := Frame.exists_fill pivot k color l u side
      rw [hfill, Frame.fill, Shape.fork_other] at hdraws
      exact ⟨path, _, _, _, _, _, _, _, hdraws⟩

/-- Every row with a child on the other side can be turned. -/
theorem turns (h : t.Linked) (hpivot : t.child? row side.other = some pivot) :
    ∃ t', t.Turns side row pivot t' := by
  obtain ⟨path, k, k', color, color', a, b, c, hdraws⟩ := h.exists_pivot hpivot
  obtain ⟨t', hrotate, -, h'⟩ := rotate_spec hdraws
  have hinner : t.Draws (Path.plug (.under ⟨row, k, color, side.other, a⟩ path)
      (.fork pivot k' color' side b c)) := by
    rw [Path.plug_other]
    exact hdraws
  have hlower : t'.Draws (Path.plug (.under ⟨pivot, k', color', side, c⟩ path)
      (.fork row k color side a b)) := h'
  obtain ⟨hrow, hpivotRow⟩ := h.lt_of_child? hpivot
  refine ⟨t', {
    rotate := hrotate
    isChild := hpivot
    row_lt := hrow
    pivot_lt := hpivotRow
    parent_lt := fun i hi => h.lt_of_parent? hi
    inner_lt := fun i hi => (h.lt_of_child? hi).2
    parent_pivot := ?_
    child_above := fun i side' hchild => ?_
    child_pivot := ?_
    child_row := ?_
    linked := h'.linked
    keys := keeps_rotate rfl t' hrotate
    inOrder := fun keys hkeys => ?_ }⟩
  · rw [parent?_of_link hdraws Shape.link_fork, parent?_of_link h' Shape.link_fork]
  · obtain ⟨f, path, rfl, rfl, rfl⟩ := hdraws.exists_under Shape.link_fork hchild
    have hup : t'.Draws (path.plug (.fork f.row f.key f.color f.side
        (.fork pivot k' color' side (.fork row k color side a b) c) f.other)) := h'
    rw [hup.child?_fork, Shape.link_fork]
  · rw [h'.child?_fork, Shape.link_fork]
  · rw [hlower.child?_fork_other, hinner.child?_fork]
  · rw [hdraws.inOrder_unique hkeys, Shape.keys, Path.rows_plug, Shape.rows_turn, ← Path.rows_plug]
    exact h'.inOrder

end Linked

end ChunkCache.RowTree
