import Mathlib.Algebra.Order.Ring.Nat
import ChunkCache.Proofs.RowTree.Insertion
import ChunkCache.RowTree.Traversal

namespace ChunkCache.RowTree

variable {t : RowTree} {i j n m rows blacks : Nat} {k : Int64} {color color' : Color} {r : Row}
variable {side : Side} {s a b : Shape} {path : Path} {above : Option Nat}

/-- A way down from a link to an absent child, which meets some rows, and among them some black
ones. -/
inductive Descends (t : RowTree) : (link : Option Nat) → (rows blacks : Nat) → Prop
  | absent : t.Descends none 0 0
  | row {i rows blacks : Nat} {r : Row} (side : Side) (hi : t.rows[i]? = some r)
      (h : t.Descends (r.child side) rows blacks) :
      t.Descends (some i) (rows + 1) (blacks + if r.color = .black then 1 else 0)

/-- The rows below a link, those on the left of a row before it and those on the right after it. -/
inductive Visits (t : RowTree) : (link : Option Nat) → (order : List Nat) → Prop
  | absent : t.Visits none []
  | row {i : Nat} {r : Row} {before after : List Nat} (hi : t.rows[i]? = some r)
      (hl : t.Visits r.left before) (hr : t.Visits r.right after) :
      t.Visits (some i) (before ++ i :: after)

/-- The rows and their links are a red-black search tree. -/
structure RedBlack (t : RowTree) : Prop where
  root : ∀ {i : Nat}, t.root = some i →
    ∃ r, t.rows[i]? = some r ∧ r.color = .black ∧ r.parent = none
  red : ∀ {i : Nat} {r : Row} (side : Side), t.rows[i]? = some r → r.color = .red →
    t.color? (r.child side) = some .black
  /-- Every way down from the root meets the same number of black rows. -/
  balanced : ∃ n, ∀ rows blacks, t.Descends t.root rows blacks → blacks = n
  /-- The parent of a child is the row that has this child. -/
  child : ∀ {i j : Nat} {r : Row} {side : Side}, t.rows[i]? = some r → r.child side = some j →
    ∃ q, t.rows[j]? = some q ∧ q.parent = some i
  /-- A row is a child of its parent. -/
  parent : ∀ {i j : Nat} {q : Row}, t.rows[j]? = some q → q.parent = some i →
    ∃ r side, t.rows[i]? = some r ∧ r.child side = some j
  /-- Only the root has no parent. -/
  orphan : ∀ {j : Nat} {q : Row}, t.rows[j]? = some q → q.parent = none → t.root = some j
  /-- From the root every row of the array is met once, and the keys ascend. -/
  visits : ∃ order, t.Visits t.root order ∧ order.Perm (List.range t.size) ∧
    (order.filterMap t.key?).Pairwise (· < ·)

section Fair

/-- Red rows lie at most every other step on a way down. -/
theorem Fair.descends (h : Fair color n s) (hs : Lies t.rows above s)
    (hd : t.Descends s.link rows blacks) :
    blacks = n ∧ rows ≤ 2 * n + if color = .red then 1 else 0 := by
  induction h generalizing above rows blacks with
  | leaf =>
      cases hd
      exact ⟨rfl, Nat.le_refl 0⟩
  | red hl hr ihl ihr =>
      obtain ⟨hrow, hliesL, hliesR⟩ := hs
      cases hd with
      | row side hi h =>
          obtain rfl := Option.some.inj (hrow.symm.trans hi)
          cases side with
          | left =>
              obtain ⟨rfl, hle⟩ := ihl hliesL h
              simp at hle ⊢
              omega
          | right =>
              obtain ⟨rfl, hle⟩ := ihr hliesR h
              simp at hle ⊢
              omega
  | @black n _ _ colorL colorR _ _ hl hr ihl ihr =>
      obtain ⟨hrow, hliesL, hliesR⟩ := hs
      cases hd with
      | row side hi h =>
          obtain rfl := Option.some.inj (hrow.symm.trans hi)
          cases side with
          | left =>
              obtain ⟨rfl, hle⟩ := ihl hliesL h
              have hone : (if colorL = .red then 1 else 0) ≤ 1 := by split <;> simp
              simp
              omega
          | right =>
              obtain ⟨rfl, hle⟩ := ihr hliesR h
              have hone : (if colorR = .red then 1 else 0) ≤ 1 := by split <;> simp
              simp
              omega

/-- A red row of a fair shape has no red child. -/
theorem Fair.red_row (h : Fair color n s) (hs : Lies t.rows above s) (hi : i ∈ s.indices)
    (hr : t.rows[i]? = some r) (hred : r.color = .red) (side : Side) :
    t.color? (r.child side) = some .black := by
  induction h generalizing above with
  | leaf => exact absurd hi List.not_mem_nil
  | red hl hu ihl ihu =>
      obtain ⟨hrow, hliesL, hliesU⟩ := hs
      rcases Shape.mem_indices_node.1 hi with hi | rfl | hi
      · exact ihl hliesL hi
      · obtain rfl := Option.some.inj (hrow.symm.trans hr)
        cases side with
        | left => exact hliesL.color?_link.trans (congrArg some hl.color_eq)
        | right => exact hliesU.color?_link.trans (congrArg some hu.color_eq)
      · exact ihu hliesU hi
  | black hl hu ihl ihu =>
      obtain ⟨hrow, hliesL, hliesU⟩ := hs
      rcases Shape.mem_indices_node.1 hi with hi | rfl | hi
      · exact ihl hliesL hi
      · obtain rfl := Option.some.inj (hrow.symm.trans hr)
        cases hred
      · exact ihu hliesU hi

theorem Fair.two_pow_le (h : Fair color n s) : 2 ^ n ≤ s.rows.length + 1 := by
  induction h with
  | leaf => exact Nat.le_refl 1
  | red hl hr ihl ihr =>
      simp only [Shape.rows, List.length_append, List.length_cons]
      omega
  | black hl hr ihl ihr =>
      simp only [Shape.rows, List.length_append, List.length_cons, Nat.pow_succ]
      omega

end Fair

theorem Lies.visits (h : Lies t.rows above s) : t.Visits s.link s.indices := by
  induction s generalizing above with
  | leaf => exact .absent
  | node i k color l r ihl ihr =>
      obtain ⟨hi, hl, hr⟩ := h
      have hvisits := Visits.row hi (ihl hl) (ihr hr)
      simpa [Shape.indices, Shape.rows, Shape.link] using hvisits

/-- Every row of a shape stands somewhere in it. -/
theorem Shape.exists_plug (h : i ∈ s.indices) :
    ∃ path k color l r, s = Path.plug path (.node i k color l r) := by
  suffices hplug : ∀ path : Path, ∃ path' k color l r,
      path.plug s = Path.plug path' (.node i k color l r) from hplug .top
  induction s with
  | leaf => exact absurd h List.not_mem_nil
  | node j k color l r ihl ihr =>
      intro path
      simp only [indices, rows, List.map_append, List.map_cons, List.mem_append, List.mem_cons] at h
      rcases h with h | rfl | h
      · exact ihl h (.under ⟨j, k, color, .left, r⟩ path)
      · exact ⟨path, k, color, l, r, rfl⟩
      · exact ihr h (.under ⟨j, k, color, .right, l⟩ path)

namespace Draws

theorem mem_indices (h : t.Draws s) (hi : t.rows[i]? = some r) : i ∈ s.indices :=
  h.indices.mem_iff.2 (List.mem_range.2 (Array.getElem?_eq_some_iff.1 hi).1)

theorem filterMap_key? (h : t.Draws s) : s.indices.filterMap t.key? = s.keys := by
  rw [Shape.indices, Shape.keys, List.filterMap_map, ← List.filterMap_eq_map]
  exact List.filterMap_congr fun e he => h.lies.key_eq he

/-- The place of a row in the drawing, and what the row says of its surroundings. -/
theorem exists_plug (h : t.Draws s) (hi : t.rows[i]? = some r) :
    ∃ path l u, s = Path.plug path (.node i r.key r.color l u) ∧ r.left = l.link ∧
      r.right = u.link ∧ r.parent = path.parent := by
  obtain ⟨path, k, color, l, u, rfl⟩ := Shape.exists_plug (h.mem_indices hi)
  obtain ⟨hrow, -⟩ := (lies_plug.1 h.lies).1
  obtain rfl := Option.some.inj (hrow.symm.trans hi)
  exact ⟨path, l, u, rfl, rfl, rfl, rfl⟩

/-- The place of a row, seen from one side. -/
theorem exists_fork (h : t.Draws s) (hi : t.rows[i]? = some r) (side : Side) :
    ∃ path a b, s = Path.plug path (.fork i r.key r.color side a b) ∧ r.child side = a.link := by
  obtain ⟨path, l, u, rfl, hleft, hright, -⟩ := h.exists_plug hi
  cases side with
  | left => exact ⟨path, l, u, rfl, hleft⟩
  | right => exact ⟨path, u, l, rfl, hright⟩

theorem orphan (h : t.Draws s) (hi : t.rows[i]? = some r) (hr : r.parent = none) :
    t.root = some i := by
  obtain ⟨path, l, u, rfl, -, -, hparent⟩ := h.exists_plug hi
  rw [hr] at hparent
  cases path with
  | top => exact h.root
  | under f path => cases hparent

theorem parent (h : t.Draws s) (hj : t.rows[j]? = some r) (hr : r.parent = some i) :
    ∃ q side, t.rows[i]? = some q ∧ q.child side = some j := by
  obtain ⟨path, l, u, rfl, -, -, hparent⟩ := h.exists_plug hj
  rw [hr] at hparent
  cases path with
  | top => cases hparent
  | under f path =>
      obtain ⟨hrow, -⟩ := (lies_plug.1 h.lies).2
      cases hparent
      exact ⟨_, f.side, hrow, Frame.child_above⟩

theorem child (h : t.Draws s) (hi : t.rows[i]? = some r) (hr : r.child side = some j) :
    ∃ q, t.rows[j]? = some q ∧ q.parent = some i := by
  obtain ⟨path, a, b, rfl, hchild⟩ := h.exists_fork hi side
  have ha : t.Draws (Path.plug (.under ⟨i, r.key, r.color, side, b⟩ path) a) := h
  obtain ⟨q, hq, hparent, -⟩ := ha.row_of_link (hchild.symm.trans hr)
  exact ⟨q, hq, hparent⟩

end Draws

namespace Sound

theorem redBlack (h : t.Sound) : t.RedBlack := by
  obtain ⟨s, n, hdraws, hfair, hsorted⟩ := h
  constructor
  · intro i hi
    have hwhole : t.Draws (Path.plug .top s) := hdraws
    obtain ⟨r, hr, hparent, hcolor⟩ := hwhole.row_of_link (hdraws.root ▸ hi)
    exact ⟨r, hr, hcolor.trans hfair.color_eq, hparent⟩
  · exact fun side hi hr => hfair.red_row hdraws.lies (hdraws.mem_indices hi) hi hr side
  · rw [hdraws.root]
    exact ⟨n, fun rows blacks hd => (hfair.descends hdraws.lies hd).1⟩
  · exact fun hi hr => hdraws.child hi hr
  · exact fun hj hr => hdraws.parent hj hr
  · exact fun hj hr => hdraws.orphan hj hr
  · refine ⟨s.indices, hdraws.root ▸ hdraws.lies.visits, hdraws.indices, ?_⟩
    rw [hdraws.filterMap_key?]
    exact List.pairwise_map.2 hsorted

/-- A way down is at most twice as long as the logarithm of the number of rows. -/
theorem descends_le (h : t.Sound) (hd : t.Descends t.root rows blacks) :
    rows ≤ 2 * Nat.log2 (t.size + 1) := by
  obtain ⟨s, n, hdraws, hfair, -⟩ := h
  rw [hdraws.root] at hd
  have hrows : rows ≤ 2 * n := (hfair.descends hdraws.lies hd).2
  have hn : n ≤ Nat.log2 (t.size + 1) := by
    rw [Nat.le_log2 (Nat.succ_ne_zero _), ← hdraws.length_rows]
    exact hfair.two_pow_le
  omega

end Sound

end ChunkCache.RowTree
