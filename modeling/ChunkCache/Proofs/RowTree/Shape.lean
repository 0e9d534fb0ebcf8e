import Mathlib.Data.List.Perm.Basic
import ChunkCache.RowTree

/-!
The shapes that trees in arrays draw. Following the links from the root makes the rows of the array
the nodes of a binary tree, and a path from a hole in this tree to the root tells where a row
stands. A row that is written leaves every part of the drawing alone in which it does not occur.
-/

namespace ChunkCache

theorem Side.eq_or_other (side side' : Side) : side = side' ∨ side = side'.other := by
  cases side <;> cases side' <;> simp [other]

@[simp]
theorem Side.other_other (side : Side) : side.other.other = side := by
  cases side <;> rfl

/-- The row whose links on a given side and on the other one are `near` and `far`. -/
def Row.linked (key : Int64) (color : Color) : Side → (near far parent : Option Nat) → Row
  | .left, near, far, parent => ⟨key, color, near, far, parent⟩
  | .right, near, far, parent => ⟨key, color, far, near, parent⟩

namespace Row

variable {key : Int64} {color : Color} {side : Side} {near far parent child : Option Nat}

theorem linked_other :
    linked key color side.other near far parent = linked key color side far near parent := by
  cases side <;> rfl

theorem child_linked : (linked key color side near far parent).child side = near := by
  cases side <;> rfl

theorem child_other_linked :
    (linked key color side near far parent).child side.other = far := by
  cases side <;> rfl

theorem withChild_linked : (linked key color side near far parent).withChild side child =
    linked key color side child far parent := by
  cases side <;> rfl

theorem withChild_other_linked :
    (linked key color side near far parent).withChild side.other child =
      linked key color side near child parent := by
  cases side <;> rfl

theorem parent_linked : (linked key color side near far parent).parent = parent := by
  cases side <;> rfl

theorem key_linked : (linked key color side near far parent).key = key := by
  cases side <;> rfl

theorem color_linked : (linked key color side near far parent).color = color := by
  cases side <;> rfl

theorem linked_withParent : { linked key color side near far parent with parent := child } =
    linked key color side near far child := by
  cases side <;> rfl

theorem linked_withColor {color' : Color} :
    { linked key color side near far parent with color := color' } =
      linked key color' side near far parent := by
  cases side <;> rfl

end Row

namespace RowTree

inductive Shape where
  | leaf
  | node (i : Nat) (key : Int64) (color : Color) (l r : Shape)

namespace Shape

/-- The node with `near` on a given side and `far` on the other one. -/
def fork (i : Nat) (key : Int64) (color : Color) : Side → (near far : Shape) → Shape
  | .left, near, far => node i key color near far
  | .right, near, far => node i key color far near

def link : Shape → Option Nat
  | leaf => none
  | node i _ _ _ _ => some i

def color : Shape → Color
  | leaf => .black
  | node _ _ color _ _ => color

def rows : Shape → List (Nat × Int64)
  | leaf => []
  | node i key _ l r => l.rows ++ (i, key) :: r.rows

def indices (s : Shape) : List Nat := s.rows.map Prod.fst

def keys (s : Shape) : List Int64 := s.rows.map Prod.snd

variable {i : Nat} {key : Int64} {color : Color} {side : Side} {near far : Shape}

theorem fork_other : fork i key color side.other near far = fork i key color side far near := by
  cases side <;> rfl

theorem link_fork : (fork i key color side near far).link = some i := by
  cases side <;> rfl

theorem color_fork : (fork i key color side near far).color = color := by
  cases side <;> rfl

theorem indices_node {l r : Shape} :
    (node i key color l r).indices = l.indices ++ i :: r.indices := by
  rw [indices, rows, List.map_append, List.map_cons, indices, indices]

theorem mem_indices_node {j : Nat} {l r : Shape} : j ∈ (node i key color l r).indices ↔
    j ∈ l.indices ∨ j = i ∨ j ∈ r.indices := by
  rw [indices_node, List.mem_append, List.mem_cons]

/-- The order of the rows of a shape does not depend on its colors. -/
theorem rows_fork {color' : Color} {near' far' : Shape} (hnear : near.rows = near'.rows)
    (hfar : far.rows = far'.rows) :
    (fork i key color side near far).rows = (fork i key color' side near' far').rows := by
  cases side with
  | left => simp only [fork, rows, hnear, hfar]
  | right => simp only [fork, rows, hnear, hfar]

/-- Turning a shape leaves the order of its rows. -/
theorem rows_turn {j : Nat} {key' : Int64} {color₁ color₂ color₃ color₄ : Color} {a b c : Shape} :
    (fork i key color₁ side a (fork j key' color₂ side b c)).rows =
      (fork j key' color₃ side (fork i key color₄ side a b) c).rows := by
  cases side with
  | left => simp [fork, rows]
  | right => simp [fork, rows]

theorem rows_fork_perm : (fork i key color side near far).rows.Perm
    ((i, key) :: (near.rows ++ far.rows)) := by
  cases side with
  | left => exact List.perm_middle
  | right => exact List.perm_middle.trans (.cons _ List.perm_append_comm)

theorem indices_fork : (fork i key color side near far).indices.Perm
    (i :: (near.indices ++ far.indices)) := by
  refine (rows_fork_perm.map Prod.fst).trans (.of_eq ?_)
  rw [List.map_cons, List.map_append]
  rfl

end Shape

/-- One step from a hole towards the root: the row above, the side of it on which the hole is, and
what hangs on its other side. -/
structure Frame where
  row : Nat
  key : Int64
  color : Color
  side : Side
  other : Shape

/-- The frames from a hole up to the root. -/
inductive Path where
  | top
  | under (f : Frame) (path : Path)

namespace Frame

def fill (f : Frame) (s : Shape) : Shape := .fork f.row f.key f.color f.side s f.other

def above (f : Frame) (child parent : Option Nat) : Row :=
  .linked f.key f.color f.side child f.other.link parent

variable {f : Frame} {child parent : Option Nat}

theorem color_above : (f.above child parent).color = f.color := Row.color_linked

theorem child_above : (f.above child parent).child f.side = child := Row.child_linked

theorem child_other_above : (f.above child parent).child f.side.other = f.other.link :=
  Row.child_other_linked

theorem rows_fill_perm (f : Frame) (s : Shape) :
    (f.fill s).rows.Perm ((f.row, f.key) :: (s.rows ++ f.other.rows)) :=
  Shape.rows_fork_perm

end Frame

namespace Path

def plug : Path → Shape → Shape
  | top, s => s
  | under f path, s => path.plug (f.fill s)

def parent : Path → Option Nat
  | top => none
  | under f _ => some f.row

def rootLink : Path → Option Nat → Option Nat
  | top, child => child
  | under f path, _ => path.rootLink (some f.row)

def indices : Path → List Nat
  | top => []
  | under f path => f.row :: (f.other.indices ++ path.indices)

def length : Path → Nat
  | top => 0
  | under _ path => path.length + 1

/-- The rows to the left of the hole. -/
def before : Path → List (Nat × Int64)
  | top => []
  | under f path =>
    path.before ++
      match f.side with
      | .left => []
      | .right => f.other.rows ++ [(f.row, f.key)]

/-- The rows to the right of the hole. -/
def after : Path → List (Nat × Int64)
  | top => []
  | under f path =>
    (match f.side with
      | .left => (f.row, f.key) :: f.other.rows
      | .right => []) ++ path.after

variable {path : Path} {s : Shape}

/-- The hole may be on either side of a row. -/
theorem plug_other {i : Nat} {key : Int64} {color : Color} {side : Side} {a b : Shape} :
    plug (.under ⟨i, key, color, side.other, a⟩ path) b =
      path.plug (.fork i key color side a b) := by
  rw [plug, Frame.fill, Shape.fork_other]

theorem link_plug : (path.plug s).link = path.rootLink s.link := by
  induction path generalizing s with
  | top => rfl
  | under f path ih =>
      rw [plug, ih, Frame.fill, Shape.link_fork]
      rfl

theorem rows_plug : (path.plug s).rows = path.before ++ s.rows ++ path.after := by
  induction path generalizing s with
  | top => simp [plug, before, after]
  | under f path ih =>
      rw [plug, ih, Frame.fill, before, after]
      cases f.side with
      | left => simp [Shape.fork, Shape.rows]
      | right => simp [Shape.fork, Shape.rows]

theorem indices_plug : (path.plug s).indices.Perm (s.indices ++ path.indices) := by
  induction path generalizing s with
  | top => simp [plug, indices]
  | under f path ih =>
      refine ih.trans ((Shape.indices_fork.append_right _).trans ?_)
      rw [indices, List.cons_append, List.append_assoc]
      exact List.perm_middle.symm

theorem length_le_indices (path : Path) : path.length ≤ path.indices.length := by
  induction path with
  | top => exact Nat.le_refl 0
  | under f path ih =>
      simp only [indices, length, List.length_cons, List.length_append]
      omega

end Path

/-- The links in an array of rows draw a shape below `parent`. -/
def Lies (rows : Array Row) : (parent : Option Nat) → Shape → Prop
  | _, .leaf => True
  | parent, .node i key color l r =>
    rows[i]? = some ⟨key, color, l.link, r.link, parent⟩ ∧
      Lies rows (some i) l ∧ Lies rows (some i) r

/-- The links in an array of rows draw a path whose hole is filled by `child`. -/
def Surrounds (rows : Array Row) : (child : Option Nat) → Path → Prop
  | _, .top => True
  | child, .under f path =>
    rows[f.row]? = some (f.above child path.parent) ∧
      Lies rows (some f.row) f.other ∧ Surrounds rows (some f.row) path

/-- The tree draws the shape, in which every row occurs once. -/
structure Draws (t : RowTree) (s : Shape) : Prop where
  root : t.root = s.link
  lies : Lies t.rows none s
  indices : s.indices.Perm (List.range t.size)

section Lies

variable {rows rows' : Array Row} {parent child : Option Nat} {s near far : Shape} {path : Path}
variable {i : Nat} {key : Int64} {color : Color} {side : Side}

theorem lies_fork : Lies rows parent (.fork i key color side near far) ↔
    rows[i]? = some (.linked key color side near.link far.link parent) ∧
      Lies rows (some i) near ∧ Lies rows (some i) far := by
  cases side with
  | left => exact Iff.rfl
  | right => exact and_congr_right fun _ => and_comm

theorem lies_plug : Lies rows none (path.plug s) ↔
    Lies rows path.parent s ∧ Surrounds rows s.link path := by
  induction path generalizing s with
  | top => exact (and_iff_left trivial).symm
  | under f path ih =>
      rw [Path.plug, ih, Frame.fill, lies_fork, Shape.link_fork]
      constructor
      · rintro ⟨⟨hrow, hs, hother⟩, hpath⟩
        exact ⟨hs, hrow, hother, hpath⟩
      · rintro ⟨hs, hrow, hother, hpath⟩
        exact ⟨⟨hrow, hs, hother⟩, hpath⟩

theorem Lies.congr (h : Lies rows parent s) (hrows : ∀ j ∈ s.indices, rows'[j]? = rows[j]?) :
    Lies rows' parent s := by
  induction s generalizing parent with
  | leaf => trivial
  | node i key color l r ihl ihr =>
      obtain ⟨hi, hl, hr⟩ := h
      simp only [Shape.mem_indices_node] at hrows
      refine ⟨(hrows i (.inr (.inl rfl))).trans hi, ihl hl ?_, ihr hr ?_⟩
      · exact fun j hj => hrows j (.inl hj)
      · exact fun j hj => hrows j (.inr (.inr hj))

theorem Surrounds.congr (h : Surrounds rows child path)
    (hrows : ∀ j ∈ path.indices, rows'[j]? = rows[j]?) : Surrounds rows' child path := by
  induction path generalizing child with
  | top => trivial
  | under f path ih =>
      obtain ⟨hrow, hother, hpath⟩ := h
      simp only [Path.indices, List.mem_cons, List.mem_append] at hrows
      refine ⟨(hrows _ (.inl rfl)).trans hrow, hother.congr ?_, ih hpath ?_⟩
      · exact fun j hj => hrows j (.inr (.inl hj))
      · exact fun j hj => hrows j (.inr (.inr hj))

theorem Lies.row_of_link (h : Lies rows parent s) (hlink : s.link = some i) :
    ∃ r, rows[i]? = some r ∧ r.parent = parent ∧ r.color = s.color := by
  cases s with
  | leaf => cases hlink
  | node j key color l r =>
      cases hlink
      exact ⟨_, h.1, rfl, rfl⟩

theorem Lies.key_eq (h : Lies rows parent s) {e : Nat × Int64} (he : e ∈ s.rows) :
    rows[e.1]?.map Row.key = some e.2 := by
  induction s generalizing parent with
  | leaf => exact absurd he List.not_mem_nil
  | node i key color l r ihl ihr =>
      obtain ⟨hi, hl, hr⟩ := h
      rcases List.mem_append.1 he with he | he
      · exact ihl hl he
      · rcases List.mem_cons.1 he with rfl | he
        · simp only [hi, Option.map_some]
        · exact ihr hr he

section Colors

variable {t : RowTree} {f : Frame}

theorem Lies.color?_link (h : Lies t.rows parent s) : t.color? s.link = some s.color := by
  cases s with
  | leaf => rfl
  | node i key color l r =>
      rw [Shape.link, color?, h.1]
      rfl

theorem Surrounds.color?_row (h : Surrounds t.rows child (.under f path)) :
    t.color? (some f.row) = some f.color := by
  rw [color?, h.1, Option.map_some, Frame.color_above]

end Colors

end Lies

namespace Draws

variable {t : RowTree} {s : Shape} {path : Path}

theorem nodup (h : t.Draws s) : s.indices.Nodup := h.indices.nodup_iff.2 List.nodup_range

theorem row_of_link (h : t.Draws (path.plug s)) {i : Nat} (hlink : s.link = some i) :
    ∃ r, t.rows[i]? = some r ∧ r.parent = path.parent ∧ r.color = s.color :=
  (lies_plug.1 h.lies).1.row_of_link hlink

theorem length_rows (h : t.Draws s) : s.rows.length = t.size := by
  have hlength := h.indices.length_eq
  rwa [List.length_range, Shape.indices, List.length_map] at hlength

theorem length_path (h : t.Draws (path.plug s)) : path.length ≤ t.size := by
  have hlength := Path.indices_plug.length_eq.symm.trans h.indices.length_eq
  rw [List.length_range, List.length_append] at hlength
  have hle := path.length_le_indices
  omega

/-- What hangs on one side of a row does not hang on the other. -/
theorem disjoint {i j : Nat} {key : Int64} {color : Color} {side : Side} {a b : Shape}
    (h : t.Draws (path.plug (.fork i key color side a b))) (ha : j ∈ a.indices) :
    j ∉ b.indices := by
  have hnodup := (Path.indices_plug.trans
    (Shape.indices_fork.append_right _)).nodup_iff.1 h.nodup
  simp only [List.cons_append, List.nodup_cons, List.nodup_append] at hnodup
  exact fun hb => hnodup.2.1.2.2 j ha j hb rfl

theorem keys_perm (h : t.Draws s) : s.keys.Perm t.keys := by
  have hkeys : s.keys.map some = s.indices.map fun i => t.rows[i]?.map Row.key := by
    rw [Shape.keys, Shape.indices, List.map_map, List.map_map]
    exact List.map_congr_left fun e he => (h.lies.key_eq he).symm
  have hrange : (List.range t.size).map (fun i => t.rows[i]?.map Row.key) = t.keys.map some := by
    apply List.ext_getElem
    · simp [RowTree.keys, RowTree.size]
    · intro k hk hk'
      have hk : k < t.rows.size := by simpa [RowTree.size] using hk
      simp [RowTree.keys, hk]
  have hperm : (s.keys.map some).Perm (t.keys.map some) := by
    rw [hkeys, ← hrange]
    exact h.indices.map _
  exact (List.map_perm_map_iff fun _ _ => Option.some.inj).1 hperm

end Draws

end RowTree

end ChunkCache
