import ChunkCache.Proofs.RowTree.Insertion
import ChunkCache.RowTree.Traversal

namespace ChunkCache.RowTree

variable {t : RowTree} {i steps : Nat} {key m : Int64} {side : Side} {s : Shape} {path : Path}
variable {parent : Option Nat}

theorem parent?_eq {r : Row} (hr : t.rows[i]? = some r) : t.parent? i = r.parent := by
  rw [parent?, hr, Option.bind_some]

theorem child?_eq {r : Row} (hr : t.rows[i]? = some r) : t.child? i side = r.child side := by
  rw [child?, hr, Option.bind_some]

section Climb

/-- The nearest row above the hole that does not have the hole on its `side`. -/
def Path.past (side : Side) : Path → Option (Nat × Int64)
  | top => none
  | under f path => if f.side = side then path.past side else some (f.row, f.key)

theorem Path.past_left (path : Path) : path.past .left = path.before.getLast? := by
  induction path with
  | top => rfl
  | under f path ih =>
      rw [past, before]
      cases f.side with
      | left => simpa using ih
      | right => simp

theorem Frame.child_eq_iff {f : Frame} (hi : i ∉ f.other.indices) :
    (f.above (some i) parent).child side = some i ↔ f.side = side := by
  rcases Side.eq_or_other side f.side with rfl | rfl
  · exact iff_of_true Frame.child_above rfl
  · rw [Frame.child_other_above]
    refine iff_of_false (fun hlink => hi (Shape.mem_indices_of_link hlink)) ?_
    cases f.side <;> decide

theorem parent?_of_link (h : t.Draws (path.plug s)) (hi : s.link = some i) :
    t.parent? i = path.parent := by
  obtain ⟨r, hr, hparent, -⟩ := h.row_of_link hi
  rw [parent?_eq hr, hparent]

/-- The links to parents lead to the nearest row on the other side. -/
theorem ancestorPast_eq (side : Side) (h : t.Draws (path.plug s)) (hi : s.link = some i)
    (hsteps : path.length ≤ steps) :
    t.ancestorPast side steps i = (path.past side).map Prod.fst := by
  induction path generalizing s i steps with
  | top =>
      cases steps with
      | zero => rfl
      | succ steps =>
          rw [ancestorPast, parent?_of_link h hi]
          rfl
  | under f path ih =>
      cases steps with
      | zero => exact absurd hsteps (Nat.not_succ_le_zero _)
      | succ steps =>
      have hup : t.Draws (path.plug (f.fill s)) := h
      obtain ⟨hrow, -⟩ := (lies_plug.1 h.lies).2
      have hchild : t.child? f.row side = (f.above (some i) path.parent).child side := by
        rw [child?_eq hrow, hi]
      have hout : i ∉ f.other.indices := hup.disjoint (Shape.mem_indices_of_link hi)
      rw [ancestorPast, parent?_of_link h hi]
      simp only [Path.parent, hchild, Frame.child_eq_iff hout, Path.past]
      split
      · exact ih hup Shape.link_fork (Nat.le_of_succ_le_succ hsteps)
      · rfl

end Climb

/-- The rows of a shape, in ascending key order, that a search for `key` would not pass. -/
def Shape.upTo (key : Int64) (s : Shape) : List (Nat × Int64) :=
  s.rows.filter fun e => decide (e.2 ≤ key)

namespace Shape

variable {k : Int64} {color : Color} {l r : Shape}

theorem upTo_eq_rows (h : ∀ e ∈ s.rows, e.2 ≤ key) : s.upTo key = s.rows :=
  List.filter_eq_self.2 fun e he => decide_eq_true (h e he)

theorem upTo_eq_nil (h : ∀ e ∈ s.rows, key < e.2) : s.upTo key = [] :=
  List.filter_eq_nil_iff.2 fun e he hle =>
    Int64.lt_irrefl (Int64.lt_of_lt_of_le (h e he) (of_decide_eq_true hle))

theorem upTo_node (key : Int64) : (node i k color l r).upTo key =
    l.upTo key ++ (if k ≤ key then [(i, k)] else []) ++ r.upTo key := by
  simp only [upTo, rows, List.filter_append, List.filter_cons, decide_eq_true_eq]
  split <;> simp

/-- The keys on the two sides of a row of a sorted shape. -/
theorem sides_of_sorted
    (h : (path.plug (node i k color l r)).rows.Pairwise fun e e' => e.2 < e'.2) :
    (∀ e ∈ l.rows, e.2 < k) ∧ ∀ e ∈ r.rows, k < e.2 := by
  rw [Path.rows_plug, List.append_assoc] at h
  have hnode := (List.pairwise_append.1 (List.pairwise_append.1 h).2.1).1
  rw [rows, List.pairwise_append, List.pairwise_cons] at hnode
  exact ⟨fun e he => hnode.2.2 e he _ List.mem_cons_self, hnode.2.1.1⟩

end Shape

theorem floorFrom_eq (h : t.Draws (path.plug s)) (hi : s.link = some i)
    (hsorted : (path.plug s).rows.Pairwise fun e e' => e.2 < e'.2) (hkey : Straddles key path)
    (hsteps : s.rows.length ≤ steps) :
    t.floorFrom key steps i = ((path.before ++ s.upTo key).getLast?).map Prod.fst := by
  induction steps generalizing s path i with
  | zero =>
      cases s with
      | leaf => cases hi
      | node j k color l r => simp [Shape.rows] at hsteps
  | succ steps ih =>
      cases s with
      | leaf => cases hi
      | node j k color l r =>
      cases hi
      obtain ⟨hrow, -⟩ := (lies_plug.1 h.lies).1
      obtain ⟨hl, hr⟩ := Shape.sides_of_sorted hsorted
      simp only [Shape.rows, List.length_append, List.length_cons] at hsteps
      rw [floorFrom, hrow, Shape.upTo_node]
      dsimp only
      by_cases heq : key = k
      · subst heq
        rw [if_pos rfl, if_pos Int64.le_rfl, Shape.upTo_eq_nil hr]
        simp
      by_cases hlt : k < key
      · have hright : Straddles key (.under ⟨i, k, color, .right, l⟩ path) :=
          hkey.under (f := ⟨i, k, color, .right, l⟩) hsorted heq
            (if_neg fun hgt => Int64.lt_asymm hlt hgt).symm
        rw [if_neg heq, if_pos hlt, if_pos (Int64.le_of_lt hlt),
          Shape.upTo_eq_rows fun e he => Int64.le_of_lt (Int64.lt_trans (hl e he) hlt)]
        cases r with
        | leaf => simp [Shape.link, Shape.upTo, Shape.rows]
        | node j' k' color' l' r' =>
            have hbelow : t.Draws (Path.plug (.under ⟨i, k, color, .right, l⟩ path)
                (.node j' k' color' l' r')) := h
            have hdown := ih hbelow rfl hsorted hright (by omega)
            simpa [Path.before, Shape.link] using hdown
      · have hgt : key < k := (Int64.lt_or_lt_of_ne heq).resolve_right hlt
        have hleft : Straddles key (.under ⟨i, k, color, .left, r⟩ path) :=
          hkey.under (f := ⟨i, k, color, .left, r⟩) hsorted heq (if_pos hgt).symm
        have hnone : ¬k ≤ key := fun hle => Int64.lt_irrefl (Int64.lt_of_lt_of_le hgt hle)
        rw [if_neg heq, if_neg hlt, if_neg hnone,
          Shape.upTo_eq_nil (s := r) fun e he => Int64.lt_trans hgt (hr e he)]
        cases l with
        | leaf =>
            have hclimb := ancestorPast_eq .left h rfl h.length_path
            rw [Path.past_left] at hclimb
            simpa [Shape.link, Shape.upTo, Shape.rows] using hclimb
        | node j' k' color' l' r' =>
            have hbelow : t.Draws (Path.plug (.under ⟨i, k, color, .left, r⟩ path)
                (.node j' k' color' l' r')) := h
            have hdown := ih hbelow rfl hsorted hleft (by omega)
            simpa [Path.before, Shape.link] using hdown

theorem getLast?_eq_some_iff {l : List Int64} (h : l.Pairwise (· < ·)) :
    l.getLast? = some m ↔ m ∈ l ∧ ∀ x ∈ l, x ≤ m := by
  rcases List.eq_nil_or_concat l with rfl | ⟨l, last, rfl⟩
  · simp
  · rw [List.concat_eq_append] at h ⊢
    have hlast : ∀ x ∈ l, x < last := fun x hx =>
      (List.pairwise_append.1 h).2.2 x hx last List.mem_cons_self
    rw [List.getLast?_concat, Option.some.injEq]
    constructor
    · rintro rfl
      refine ⟨by simp, fun x hx => ?_⟩
      rcases List.mem_append.1 hx with hx | hx
      · exact Int64.le_of_lt (hlast x hx)
      · exact List.mem_singleton.1 hx ▸ Int64.le_rfl
    · rintro ⟨hm, hmax⟩
      rcases List.mem_append.1 hm with hm | hm
      · have hle := hmax last (by simp)
        exact absurd (Int64.lt_of_lt_of_le (hlast m hm) hle) Int64.lt_irrefl
      · exact (List.mem_singleton.1 hm).symm

theorem Shape.map_upTo (key : Int64) (s : Shape) :
    (s.upTo key).map Prod.snd = s.keys.filter fun k => decide (k ≤ key) := by
  rw [keys, List.filter_map]
  rfl

theorem Draws.floorRow_eq (h : t.Draws s) (hsorted : s.rows.Pairwise fun e e' => e.2 < e'.2)
    (key : Int64) : t.floorRow key = (s.upTo key).getLast?.map Prod.fst := by
  rw [floorRow, h.root]
  cases s with
  | leaf => rfl
  | node i k color l r =>
      have htop : Straddles key .top := ⟨by simp [Path.before], by simp [Path.after]⟩
      have hwhole : t.Draws (Path.plug .top (.node i k color l r)) := h
      exact floorFrom_eq hwhole rfl hsorted htop (Nat.le_succ_of_le (Nat.le_of_eq h.length_rows))

theorem Draws.floor?_eq (h : t.Draws s) (hsorted : s.rows.Pairwise fun e e' => e.2 < e'.2)
    (key : Int64) : t.floor? key = (s.keys.filter fun k => decide (k ≤ key)).getLast? := by
  rw [floor?, h.floorRow_eq hsorted, ← Shape.map_upTo, List.getLast?_map]
  cases hlast : (s.upTo key).getLast? with
  | none => rfl
  | some e =>
      have he : e ∈ s.rows := (List.mem_filter.1 (List.mem_of_getLast? hlast)).1
      exact h.lies.key_eq he

namespace Sound

theorem floor?_eq_some_iff (h : t.Sound) :
    t.floor? key = some m ↔ m ∈ t.keys ∧ m ≤ key ∧ ∀ x ∈ t.keys, x ≤ key → x ≤ m := by
  obtain ⟨s, n, hdraws, -, hsorted⟩ := h
  have hascending : (s.keys.filter fun k => decide (k ≤ key)).Pairwise (· < ·) :=
    (List.pairwise_map.2 hsorted).filter _
  rw [hdraws.floor?_eq hsorted, getLast?_eq_some_iff hascending]
  simp only [List.mem_filter, decide_eq_true_eq, hdraws.keys_perm.mem_iff, and_assoc, and_imp]

theorem floor?_eq_none_iff (h : t.Sound) : t.floor? key = none ↔ ∀ x ∈ t.keys, key < x := by
  obtain ⟨s, n, hdraws, -, hsorted⟩ := h
  rw [hdraws.floor?_eq hsorted, List.getLast?_eq_none_iff, List.filter_eq_nil_iff]
  simp only [decide_eq_true_eq, hdraws.keys_perm.mem_iff, Int64.not_le]

theorem contains_iff (h : t.Sound) : t.contains key = true ↔ key ∈ t.keys := by
  rw [contains, decide_eq_true_eq, h.floor?_eq_some_iff]
  exact ⟨fun hkey => hkey.1, fun hkey => ⟨hkey, Int64.le_rfl, fun _ _ hle => hle⟩⟩

end Sound

end ChunkCache.RowTree
