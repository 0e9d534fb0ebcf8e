import Mathlib.Data.List.TakeWhile
import ChunkCache.Proofs.RowTree.Floor
import ChunkCache.Proofs.RowTree.RedBlack

/-!
Traversals of a tree in the order of its keys. The loops that make them have no bound on their
steps, so they are told by the links alone, each as a relation: a derivation is a loop that comes to
an end and meets no absent row. On a tree that draws a shape every loop has a derivation, because a
step along the links is a step along the rows of the shape.
-/

namespace ChunkCache

namespace RowTree

variable {t : RowTree} {i steps count : Nat} {key : Int64} {color : Color} {side : Side}
variable {s near far : Shape} {path : Path} {parent : Option Nat} {e : Nat × Int64}
variable {done rest : List (Nat × Int64)} {keep : Int64 → Bool}

/-- The links on `side` lead from a row down to one that has none. -/
inductive Bottoms (t : RowTree) (side : Side) : (i j : Nat) → Prop
  | here {i : Nat} {r : Row} (hi : t.rows[i]? = some r) (hchild : r.child side = none) :
      t.Bottoms side i i
  | down {i j child : Nat} {r : Row} (hi : t.rows[i]? = some r)
      (hchild : r.child side = some child) (h : t.Bottoms side child j) : t.Bottoms side i j

/-- The links to parents lead from a row up to the first one that does not have the row before on
its `side`, or past the root. -/
inductive Climbs (t : RowTree) (side : Side) : (i : Nat) → (end? : Option Nat) → Prop
  | root {i : Nat} {r : Row} (hi : t.rows[i]? = some r) (hparent : r.parent = none) :
      t.Climbs side i none
  | turn {i parent : Nat} {r q : Row} (hi : t.rows[i]? = some r)
      (hparent : r.parent = some parent) (hq : t.rows[parent]? = some q)
      (hchild : q.child side ≠ some i) : t.Climbs side i (some parent)
  | up {i parent : Nat} {r q : Row} {end? : Option Nat} (hi : t.rows[i]? = some r)
      (hparent : r.parent = some parent) (hq : t.rows[parent]? = some q)
      (hchild : q.child side = some i) (h : t.Climbs side parent end?) : t.Climbs side i end?

/-- A step on to the next row on `side`: down to the nearest row below on this side, or up if there
is none. -/
inductive Advances (t : RowTree) (side : Side) : (i : Nat) → (next? : Option Nat) → Prop
  | down {i child next : Nat} {r : Row} (hi : t.rows[i]? = some r)
      (hchild : r.child side = some child) (h : t.Bottoms side.other child next) :
      t.Advances side i (some next)
  | up {i : Nat} {r : Row} {next? : Option Nat} (hi : t.rows[i]? = some r)
      (hchild : r.child side = none) (h : t.Climbs side i next?) : t.Advances side i next?

/-- The loop over rows towards `side` which goes on as long as there is a row and `go` admits its
key and the number of keys visited before, and the keys it visits. -/
inductive Passes (t : RowTree) (side : Side) (go : Int64 → Nat → Bool) :
    (visited : Nat) → (i? : Option Nat) → (keys : List Int64) → Prop
  | absent {visited : Nat} : t.Passes side go visited none []
  | stop {visited i : Nat} {r : Row} (hi : t.rows[i]? = some r) (hgo : go r.key visited = false) :
      t.Passes side go visited (some i) []
  | visit {visited i : Nat} {r : Row} {next? : Option Nat} {keys : List Int64}
      (hi : t.rows[i]? = some r) (hgo : go r.key visited = true)
      (hnext : t.Advances side i next?) (h : t.Passes side go (visited + 1) next? keys) :
      t.Passes side go visited (some i) (r.key :: keys)

/-- The search for the row of the greatest key up to `key`. -/
inductive Floors (t : RowTree) (key : Int64) : (i? floor? : Option Nat) → Prop
  | absent : t.Floors key none none
  | found {i : Nat} {r : Row} (hi : t.rows[i]? = some r) (hkey : key = r.key) :
      t.Floors key (some i) (some i)
  | last {i : Nat} {r : Row} (hi : t.rows[i]? = some r) (hkey : r.key < key)
      (hright : r.right = none) : t.Floors key (some i) (some i)
  | right {i child : Nat} {r : Row} {floor? : Option Nat} (hi : t.rows[i]? = some r)
      (hkey : r.key < key) (hright : r.right = some child)
      (h : t.Floors key (some child) floor?) : t.Floors key (some i) floor?
  | climb {i : Nat} {r : Row} {floor? : Option Nat} (hi : t.rows[i]? = some r) (hkey : key < r.key)
      (hleft : r.left = none) (h : t.Climbs .left i floor?) : t.Floors key (some i) floor?
  | left {i child : Nat} {r : Row} {floor? : Option Nat} (hi : t.rows[i]? = some r)
      (hkey : key < r.key) (hleft : r.left = some child)
      (h : t.Floors key (some child) floor?) : t.Floors key (some i) floor?

/-- The search for the outermost row on `side`. -/
inductive Ends (t : RowTree) (side : Side) : (end? : Option Nat) → Prop
  | absent (hroot : t.root = none) : t.Ends side none
  | row {root i : Nat} (hroot : t.root = some root) (h : t.Bottoms side root i) :
      t.Ends side (some i)

/-- The loop over all keys. -/
def Iterates (t : RowTree) (keys : List Int64) : Prop :=
  ∃ start, t.Ends .left start ∧ t.Passes .right (fun _ _ => true) 0 start keys

/-- The loop over at most `count` keys from `stop` down to `start`. -/
def Ranges (t : RowTree) (start stop : Int64) (count : Nat) (keys : List Int64) : Prop :=
  ∃ row, t.Floors stop t.root row ∧
    t.Passes .left (fun key visited => decide (start ≤ key) && decide (visited < count)) 0 row keys

namespace Shape

/-- The rows of a shape in the order in which a traversal towards `side` meets them. -/
def toward : Side → Shape → List (Nat × Int64)
  | .left, s => s.rows.reverse
  | .right, s => s.rows

theorem toward_fork : (fork i key color side near far).toward side =
    far.toward side ++ (i, key) :: near.toward side := by
  cases side <;> simp [fork, toward, rows]

theorem toward_fork_other : (fork i key color side near far).toward side.other =
    near.toward side.other ++ (i, key) :: far.toward side.other := by
  rw [← fork_other, toward_fork]

theorem toward_perm : (s.toward side).Perm s.rows := by
  cases side with
  | left => exact List.reverse_perm _
  | right => exact .refl _

theorem mem_rows_of_toward (hs : s.toward side = done ++ e :: rest) : e ∈ s.rows :=
  toward_perm.mem_iff.1 (hs ▸ List.mem_append_right _ List.mem_cons_self)

end Shape

namespace Path

/-- The rows beyond the hole on `side`, the nearest first. -/
def beyond : Side → Path → List (Nat × Int64)
  | .left, path => path.before.reverse
  | .right, path => path.after

theorem toward_plug (side : Side) : (path.plug s).toward side =
    (path.beyond side.other).reverse ++ (s.toward side ++ path.beyond side) := by
  cases side <;> simp [Shape.toward, beyond, rows_plug, Side.other]

theorem past_right (path : Path) : path.past .right = path.after.head? := by
  induction path with
  | top => rfl
  | under f path ih =>
      rw [past, after]
      cases f.side with
      | left => simp
      | right => simpa using ih

theorem past_eq (side : Side) (path : Path) : path.past side = (path.beyond side).head? := by
  cases side with
  | left => rw [past_left, beyond, List.head?_reverse]
  | right => exact path.past_right

end Path

/-- The outermost row on a side is the first one that a traversal away from this side meets. -/
theorem Lies.outermost (side : Side) (h : Lies t.rows parent s) (hi : s.link = some i)
    (hsteps : s.rows.length ≤ steps) : ∃ e, (s.toward side.other).head? = some e ∧
      t.outermost side steps i = e.1 ∧ t.Bottoms side i e.1 := by
  induction steps generalizing s i parent with
  | zero =>
      cases s with
      | leaf => cases hi
      | node j k color l r => simp [Shape.rows] at hsteps
  | succ steps ih =>
      cases s with
      | leaf => cases hi
      | node j k color l r =>
      obtain ⟨f, near, hfill, rfl, rfl, rfl⟩ := Frame.exists_fill j k color l r side
      rw [hfill, Frame.fill] at h hsteps ⊢
      cases hi
      obtain ⟨hrow, hnear, -⟩ := lies_fork.1 h
      have hchild : t.child? f.row f.side = near.link := (child?_eq hrow).trans Row.child_linked
      rw [Shape.toward_fork_other, RowTree.outermost, hchild]
      cases near with
      | leaf => exact ⟨(f.row, f.key), by cases f.side <;> rfl, rfl, .here hrow Row.child_linked⟩
      | node j k color l r =>
          rw [Shape.rows_fork_perm.length_eq, List.length_cons, List.length_append] at hsteps
          obtain ⟨e, he, houtermost, hbottoms⟩ := ih hnear rfl (by omega)
          refine ⟨e, ?_, houtermost, .down hrow Row.child_linked hbottoms⟩
          rw [List.head?_append, he, Option.some_or]

namespace Draws

/-- The links to parents lead to the nearest row on the other side. -/
theorem climbs (side : Side) (h : t.Draws (path.plug s)) (hi : s.link = some i) :
    t.Climbs side i ((path.past side).map Prod.fst) := by
  induction path generalizing s i with
  | top =>
      obtain ⟨r, hr, hparent, -⟩ := h.row_of_link hi
      exact .root hr hparent
  | under f path ih =>
      obtain ⟨r, hr, hparent, -⟩ := h.row_of_link hi
      have hup : t.Draws (path.plug (f.fill s)) := h
      obtain ⟨hrow, -⟩ := (lies_plug.1 h.lies).2
      have hout : i ∉ f.other.indices := hup.disjoint (Shape.mem_indices_of_link hi)
      have hchild : (f.above (some i) path.parent).child side = some i ↔ f.side = side :=
        Frame.child_eq_iff hout
      rw [hi] at hrow
      rw [Path.past]
      split
      · exact .up hr hparent hrow (hchild.2 ‹_›) (ih hup Shape.link_fork)
      · exact .turn hr hparent hrow fun hlink => ‹¬_› (hchild.1 hlink)

theorem neighbour_fork (h : t.Draws (path.plug (.fork i key color side near far))) :
    t.neighbour side i = (near.toward side ++ path.beyond side).head?.map Prod.fst ∧
      t.Advances side i ((near.toward side ++ path.beyond side).head?.map Prod.fst) := by
  obtain ⟨hrow, hnear, -⟩ := lies_fork.1 (lies_plug.1 h.lies).1
  have hchild : t.child? i side = near.link := (child?_eq hrow).trans Row.child_linked
  rw [neighbour, hchild]
  cases near with
  | leaf =>
      have hpast : ((Shape.leaf.toward side ++ path.beyond side).head?).map Prod.fst =
          (path.past side).map Prod.fst := by
        rw [Path.past_eq]
        cases side <;> rfl
      rw [hpast]
      exact ⟨ancestorPast_eq side h Shape.link_fork h.length_path,
        .up hrow Row.child_linked (h.climbs side Shape.link_fork)⟩
  | node j k color' l r =>
      have hlength : (Shape.node j k color' l r).rows.length ≤ t.size := by
        have hrows := h.length_rows
        rw [Path.rows_plug, List.length_append, List.length_append,
          Shape.rows_fork_perm.length_eq, List.length_cons, List.length_append] at hrows
        omega
      obtain ⟨e, he, houtermost, hbottoms⟩ := hnear.outermost side.other rfl hlength
      rw [Side.other_other] at he
      rw [List.head?_append, he]
      exact ⟨congrArg some houtermost, .down hrow Row.child_linked hbottoms⟩

/-- A step along the links is a step along the rows. -/
theorem neighbour_eq (h : t.Draws s) (hs : s.toward side = done ++ e :: rest) :
    t.neighbour side e.1 = rest.head?.map Prod.fst ∧
      t.Advances side e.1 (rest.head?.map Prod.fst) := by
  have hnodup : ((done ++ e :: rest).map Prod.fst).Nodup := by
    rw [← hs]
    exact (Shape.toward_perm.map Prod.fst).nodup_iff.2 h.nodup
  have he : e.1 ∈ s.indices := List.mem_map_of_mem (Shape.mem_rows_of_toward hs)
  obtain ⟨path, k, color, l, r, rfl⟩ := Shape.exists_plug he
  obtain ⟨f, near, hfill, hrow, -, rfl⟩ := Frame.exists_fill e.1 k color l r side
  rw [hfill, Frame.fill, hrow] at h hs
  rw [Path.toward_plug, Shape.toward_fork, List.append_assoc, List.cons_append,
    ← List.append_assoc] at hs
  rw [List.map_append, List.map_cons, List.nodup_append, List.nodup_cons] at hnodup
  -- No row occurs twice, so the rows split at this one in one way only.
  have hdone : (e.1, f.key) ∉ done := fun hmem =>
    hnodup.2.2 e.1 (List.mem_map.2 ⟨_, hmem, rfl⟩) e.1 List.mem_cons_self rfl
  have hrest : (e.1, f.key) ∉ rest := fun hmem => hnodup.2.1.1 (List.mem_map.2 ⟨_, hmem, rfl⟩)
  obtain ⟨-, -, rfl⟩ := (List.append_cons_inj_of_notMem hdone hrest).1 hs.symm
  exact h.neighbour_fork

theorem walk_eq (h : t.Draws s) (hs : s.toward side = done ++ rest) :
    t.walk side keep count (rest.head?.map Prod.fst) =
      ((rest.map Prod.snd).takeWhile keep).take count := by
  induction rest generalizing done count with
  | nil => cases count <;> rfl
  | cons e rest ih =>
      cases count with
      | zero => rfl
      | succ count =>
          have hkey : t.key? e.1 = some e.2 := h.lies.key_eq (Shape.mem_rows_of_toward hs)
          have hnext : t.walk side keep count (rest.head?.map Prod.fst) =
              ((rest.map Prod.snd).takeWhile keep).take count :=
            ih (hs.trans (List.append_cons done e rest))
          rw [List.head?_cons, Option.map_some, walk, hkey, (h.neighbour_eq hs).1, hnext,
            List.map_cons, List.takeWhile_cons]
          dsimp only
          split <;> rfl

end Draws

/-- What a loop with the condition `go` visits of some keys. -/
def taken (go : Int64 → Nat → Bool) : (visited : Nat) → List Int64 → List Int64
  | _, [] => []
  | visited, key :: keys => if go key visited then key :: taken go (visited + 1) keys else []

theorem taken_all (visited : Nat) (keys : List Int64) :
    taken (fun _ _ => true) visited keys = keys := by
  induction keys generalizing visited with
  | nil => rfl
  | cons key keys ih => exact congrArg (key :: ·) (ih (visited + 1))

theorem taken_bounded (visited : Nat) (keys : List Int64) :
    taken (fun key visited => keep key && decide (visited < count)) visited keys =
      (keys.takeWhile keep).take (count - visited) := by
  induction keys generalizing visited with
  | nil => exact (List.take_nil).symm
  | cons key keys ih =>
      rw [taken, ih, List.takeWhile_cons]
      by_cases hvisited : visited < count
      · have hleft : count - visited = count - (visited + 1) + 1 := by omega
        rw [hleft]
        cases keep key <;> simp [hvisited]
      · have hleft : count - visited = 0 := by omega
        simp [hvisited, hleft]

namespace Draws

theorem passes (h : t.Draws s) (go : Int64 → Nat → Bool) (visited : Nat)
    (hs : s.toward side = done ++ rest) :
    t.Passes side go visited (rest.head?.map Prod.fst) (taken go visited (rest.map Prod.snd)) := by
  induction rest generalizing done visited with
  | nil => exact .absent
  | cons e rest ih =>
      have hrow := h.lies.key_eq (Shape.mem_rows_of_toward hs)
      obtain ⟨r, hr, hkey⟩ := Option.map_eq_some_iff.1 hrow
      have hnext := ih (visited + 1) (hs.trans (List.append_cons done e rest))
      rw [List.map_cons, taken, ← hkey]
      split
      · exact .visit hr ‹_› (h.neighbour_eq hs).2 hnext
      · exact .stop hr (Bool.eq_false_of_not_eq_true ‹_›)

/-- The outermost row on a side is where a traversal away from this side begins. -/
theorem ends (h : t.Draws s) (side : Side) :
    t.endRow side = (s.toward side.other).head?.map Prod.fst ∧ t.Ends side (t.endRow side) := by
  rw [endRow, h.root]
  cases hs : s.link with
  | none =>
      cases s with
      | leaf => exact ⟨by cases side <;> rfl, .absent h.root⟩
      | node => cases hs
  | some root =>
      obtain ⟨e, he, houtermost, hbottoms⟩ :=
        h.lies.outermost side hs (Nat.le_of_eq h.length_rows)
      rw [he, Option.map_some, houtermost]
      exact ⟨rfl, .row (h.root.trans hs) hbottoms⟩

theorem floors_from (h : t.Draws (path.plug s)) (hi : s.link = some i)
    (hsteps : s.rows.length ≤ steps) : t.Floors key (some i) (t.floorFrom key steps i) := by
  induction steps generalizing s path i with
  | zero =>
      cases s with
      | leaf => cases hi
      | node j k color l r => simp [Shape.rows] at hsteps
  | succ steps ih =>
      cases s with
      | leaf => cases hi
      | node j k color l r =>
      cases hi
      obtain ⟨hrow, -⟩ := (lies_plug.1 h.lies).1
      simp only [Shape.rows, List.length_append, List.length_cons] at hsteps
      rw [floorFrom, hrow]
      dsimp only
      split
      · exact .found hrow ‹_›
      split
      · cases r with
        | leaf => exact .last hrow ‹_› rfl
        | node j' k' color' l' r' =>
            have hbelow : t.Draws (Path.plug (.under ⟨i, k, color, .right, l⟩ path)
                (.node j' k' color' l' r')) := h
            exact .right hrow ‹_› rfl (ih hbelow rfl (by omega))
      · have hlt : key < k := (Int64.lt_or_lt_of_ne ‹_›).resolve_right ‹_›
        cases l with
        | leaf =>
            have hclimbs := h.climbs .left rfl
            rw [← ancestorPast_eq .left h rfl h.length_path] at hclimbs
            exact .climb hrow hlt rfl hclimbs
        | node j' k' color' l' r' =>
            have hbelow : t.Draws (Path.plug (.under ⟨i, k, color, .left, r⟩ path)
                (.node j' k' color' l' r')) := h
            exact .left hrow hlt rfl (ih hbelow rfl (by omega))

theorem floors (h : t.Draws s) (key : Int64) : t.Floors key t.root (t.floorRow key) := by
  rw [floorRow, h.root]
  cases s with
  | leaf => exact .absent
  | node i k color l r =>
      have hwhole : t.Draws (Path.plug .top (.node i k color l r)) := h
      exact hwhole.floors_from rfl (Nat.le_succ_of_le (Nat.le_of_eq h.length_rows))

end Draws

/-- What satisfies a condition that the elements before inherit is what a loop meets before the
condition fails. -/
theorem takeWhile_eq_filter {α : Type} {p : α → Bool} {l : List α}
    (h : l.Pairwise fun a b => p b = true → p a = true) : l.takeWhile p = l.filter p := by
  induction l with
  | nil => rfl
  | cons a l ih =>
      obtain ⟨ha, hl⟩ := List.pairwise_cons.1 h
      by_cases hp : p a = true
      · rw [List.takeWhile_cons_of_pos hp, List.filter_cons_of_pos hp, ih hl]
      · rw [List.takeWhile_cons_of_neg hp, List.filter_cons_of_neg hp]
        exact (List.filter_eq_nil_iff.2 fun b hb hpb => hp (ha b hb hpb)).symm

theorem head?_eq_some_iff {l : List Int64} {m : Int64} (h : l.Pairwise (· < ·)) :
    l.head? = some m ↔ m ∈ l ∧ ∀ x ∈ l, m ≤ x := by
  cases l with
  | nil => simp
  | cons first l =>
      have hfirst : ∀ x ∈ l, first < x := (List.pairwise_cons.1 h).1
      rw [List.head?_cons, Option.some.injEq]
      constructor
      · rintro rfl
        refine ⟨List.mem_cons_self, fun x hx => ?_⟩
        rcases List.mem_cons.1 hx with rfl | hx
        · exact Int64.le_rfl
        · exact Int64.le_of_lt (hfirst x hx)
      · rintro ⟨hm, hmin⟩
        rcases List.mem_cons.1 hm with rfl | hm
        · rfl
        · have hle := hmin first List.mem_cons_self
          exact absurd (Int64.lt_of_lt_of_le (hfirst m hm) hle) Int64.lt_irrefl

/-- The traversals of a tree with the given keys in ascending order, and their loops. -/
structure Traversed (t : RowTree) (keys : List Int64) : Prop where
  ends : ∀ side, t.Ends side (t.endRow side)
  first : t.first? = keys.head?
  last : t.last? = keys.getLast?
  toList : t.toList = keys
  iterates : t.Iterates keys
  range : ∀ start stop count, t.range start stop count =
    ((keys.filter fun k => decide (start ≤ k ∧ k ≤ stop)).reverse).take count
  ranges : ∀ start stop count, t.Ranges start stop count (t.range start stop count)

namespace Draws

theorem endRow_key? (h : t.Draws s) (side : Side) :
    (t.endRow side).bind t.key? = ((s.toward side.other).map Prod.snd).head? := by
  rw [(h.ends side).1, List.head?_map]
  cases he : (s.toward side.other).head? with
  | none => rfl
  | some e => exact h.lies.key_eq (Shape.toward_perm.mem_iff.1 (List.mem_of_head? he))

theorem toList_eq (h : t.Draws s) : t.toList = s.keys ∧ t.Iterates s.keys := by
  have hstart : t.endRow .left = s.rows.head?.map Prod.fst := (h.ends .left).1
  have hs : s.toward .right = [] ++ s.rows := rfl
  constructor
  · rw [toList, hstart, h.walk_eq hs, List.takeWhile_eq_self_iff.2 fun _ _ => rfl,
      List.take_of_length_le]
    · rfl
    · rw [List.length_map, h.length_rows]
  · have hpasses := h.passes (fun _ _ => true) 0 hs
    rw [taken_all, ← hstart] at hpasses
    exact ⟨t.endRow .left, (h.ends .left).2, hpasses⟩

/-- A loop that begins at the greatest key up to `stop` and goes down while the keys are at least
`start` meets the interval, because the keys descend. -/
theorem range_eq (h : t.Draws s) (hsorted : s.rows.Pairwise fun e e' => e.2 < e'.2)
    (start stop : Int64) (count : Nat) :
    t.range start stop count =
        ((s.keys.filter fun k => decide (start ≤ k ∧ k ≤ stop)).reverse).take count ∧
      t.Ranges start stop count (t.range start stop count) := by
  have hupTo : s.upTo stop = s.rows.takeWhile fun e => decide (e.2 ≤ stop) := by
    refine (takeWhile_eq_filter (hsorted.imp fun hlt hle => ?_)).symm
    exact decide_eq_true (Int64.le_trans (Int64.le_of_lt hlt) (of_decide_eq_true hle))
  -- The loop begins in the middle of the traversal, after the keys beyond `stop`.
  have hs : s.toward .left =
      (s.rows.dropWhile fun e => decide (e.2 ≤ stop)).reverse ++ (s.upTo stop).reverse := by
    rw [hupTo, ← List.reverse_append, List.takeWhile_append_dropWhile]
    rfl
  have hstart : t.floorRow stop = (s.upTo stop).reverse.head?.map Prod.fst := by
    rw [h.floorRow_eq hsorted, List.head?_reverse]
  have hdescending : ((s.upTo stop).reverse.map Prod.snd).Pairwise (· > ·) := by
    rw [List.pairwise_map, List.pairwise_reverse]
    exact hsorted.filter _
  have hkeys : ((s.upTo stop).reverse.map Prod.snd).takeWhile (fun k => decide (start ≤ k)) =
      (s.keys.filter fun k => decide (start ≤ k ∧ k ≤ stop)).reverse := by
    rw [takeWhile_eq_filter (hdescending.imp fun hlt hle => ?_), List.map_reverse,
      Shape.map_upTo, List.filter_reverse, List.filter_filter]
    · simp only [Bool.decide_and]
    · exact decide_eq_true (Int64.le_trans (of_decide_eq_true hle) (Int64.le_of_lt hlt))
  have hrange : t.range start stop count =
      ((s.keys.filter fun k => decide (start ≤ k ∧ k ≤ stop)).reverse).take count := by
    rw [RowTree.range, hstart, h.walk_eq hs, hkeys]
  have hpasses :=
    h.passes (fun key visited => decide (start ≤ key) && decide (visited < count)) 0 hs
  rw [taken_bounded, hkeys, Nat.sub_zero, ← hrange, ← hstart] at hpasses
  exact ⟨hrange, t.floorRow stop, h.floors stop, hpasses⟩

theorem traversed (h : t.Draws s) (hsorted : s.rows.Pairwise fun e e' => e.2 < e'.2) :
    t.Traversed s.keys where
  ends side := (h.ends side).2
  first := h.endRow_key? .left
  last := by
    rw [last?, h.endRow_key?]
    change (s.rows.reverse.map Prod.snd).head? = _
    rw [List.map_reverse, List.head?_reverse]
    rfl
  toList := h.toList_eq.1
  iterates := h.toList_eq.2
  range start stop count := (h.range_eq hsorted start stop count).1
  ranges start stop count := (h.range_eq hsorted start stop count).2

end Draws

theorem Sound.traversed (h : t.Sound) : ∃ keys : List Int64,
    keys.Pairwise (· < ·) ∧ (∀ k, k ∈ keys ↔ k ∈ t.keys) ∧ t.Traversed keys := by
  obtain ⟨s, n, hdraws, -, hsorted⟩ := h
  exact ⟨s.keys, List.pairwise_map.2 hsorted, fun k => hdraws.keys_perm.mem_iff,
    hdraws.traversed hsorted⟩

end RowTree

end ChunkCache
