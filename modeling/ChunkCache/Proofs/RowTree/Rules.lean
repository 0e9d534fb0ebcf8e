import ChunkCache.Proofs.RowTree.Links

namespace ChunkCache.RowTree

variable {t : RowTree} {i n m row : Nat} {k : Int64} {color color' : Color} {r : Row} {side : Side}
variable {s a b : Shape} {f : Frame} {path : Path} {above hole : Option Nat}

/-- Every way down from a link meets the same number of black rows. -/
def Level (t : RowTree) (link : Option Nat) (n : Nat) : Prop :=
  ∀ rows blacks, t.Descends link rows blacks → blacks = n

/-- A red-black search tree but for one red row, which may hang below a red row or be the root. -/
structure RedBlackExcept (t : RowTree) (row : Nat) : Prop where
  linked : t.Linked
  ascending : ∃ keys, t.InOrder keys ∧ keys.Pairwise (· < ·)
  balanced : ∃ n, t.Level t.root n
  isRed : t.color? (some row) = some .red
  root : ∀ {i : Nat}, t.root = some i → i = row ∨ t.color? (some i) = some .black
  red : ∀ {i : Nat} {r : Row} (side : Side), t.rows[i]? = some r → r.color = .red →
    r.child side = some row ∨ t.color? (r.child side) = some .black

section Levels

theorem Level.child (h : t.Level (some i) n) (hi : t.rows[i]? = some r) (side : Side) :
    t.Level (r.child side) (n - if r.color = .black then 1 else 0) := by
  intro rows blacks hd
  rw [← h _ _ (.row side hi hd), Nat.add_sub_cancel]

theorem level_row (hi : t.rows[i]? = some r) (h : ∀ side, t.Level (r.child side) n) :
    t.Level (some i) (n + if r.color = .black then 1 else 0) := by
  intro rows blacks hd
  cases hd with
  | row side hi' hd =>
      obtain rfl := Option.some.inj (hi.symm.trans hi')
      rw [h side _ _ hd]

theorem Fair.level (h : Fair color n s) (hs : Lies t.rows above s) : t.Level s.link n :=
  fun _ _ hd => (h.descends hs hd).1

theorem Lies.exists_descends (h : Lies t.rows above s) :
    ∃ rows blacks, t.Descends s.link rows blacks := by
  induction s generalizing above with
  | leaf => exact ⟨0, 0, .absent⟩
  | node i k color l u ihl ihu =>
      obtain ⟨rows, blacks, hd⟩ := ihl h.2.1
      exact ⟨_, _, .row .left h.1 hd⟩

/-- A child of a row of a shape is a row of the shape. -/
theorem Lies.mem_of_child (h : Lies t.rows above s) (hi : i ∈ s.indices) (hr : t.rows[i]? = some r)
    (hj : r.child side = some j) : j ∈ s.indices := by
  induction s generalizing above with
  | leaf => exact absurd hi List.not_mem_nil
  | node i' k color l u ihl ihu =>
      obtain ⟨hrow, hl, hu⟩ := h
      rw [Shape.mem_indices_node] at hi ⊢
      rcases hi with hi | rfl | hi
      · exact .inl (ihl hl hi)
      · obtain rfl := Option.some.inj (hrow.symm.trans hr)
        cases side with
        | left => exact .inl (Shape.mem_indices_of_link hj)
        | right => exact .inr (.inr (Shape.mem_indices_of_link hj))
      · exact .inr (.inr (ihu hu hi))

/-- A shape is fair if its rows keep the rules. -/
theorem Lies.fair (h : Lies t.rows above s) (hlevel : t.Level s.link n)
    (hred : ∀ i ∈ s.indices, ∀ r side, t.rows[i]? = some r → r.color = .red →
      t.color? (r.child side) = some .black) : Fair s.color n s := by
  induction s generalizing above n with
  | leaf =>
      obtain rfl := hlevel 0 0 .absent
      exact .leaf
  | node i k color l u ihl ihu =>
      obtain ⟨hi, hl, hu⟩ := h
      simp only [Shape.mem_indices_node] at hred
      have hfairL := ihl hl (hlevel.child hi .left) fun j hj => hred j (.inl hj)
      have hfairU := ihu hu (hlevel.child hi .right) fun j hj => hred j (.inr (.inr hj))
      cases color with
      | red =>
          have hblackL := hred i (.inr (.inl rfl)) _ .left hi rfl
          have hblackU := hred i (.inr (.inl rfl)) _ .right hi rfl
          change t.color? l.link = _ at hblackL
          change t.color? u.link = _ at hblackU
          rw [hl.color?_link, Option.some.injEq] at hblackL
          rw [hu.color?_link, Option.some.injEq] at hblackU
          rw [hblackL] at hfairL
          rw [hblackU] at hfairU
          exact .red hfairL hfairU
      | black =>
          obtain ⟨rows, blacks, hd⟩ := hl.exists_descends
          obtain rfl : blacks + 1 = n := hlevel _ _ (.row .left hi hd)
          exact .black hfairL hfairU

end Levels

section Gaps

theorem level_fill (h : Surrounds t.rows s.link (.under f path)) (hs : t.Level s.link n)
    (hother : Fair color n f.other) :
    t.Level (f.fill s).link (n + if f.color = .black then 1 else 0) := by
  obtain ⟨hrow, hlies, -⟩ := h
  rw [Frame.fill, Shape.link_fork, ← Frame.color_above]
  refine level_row hrow fun side => ?_
  rcases Side.eq_or_other side f.side with rfl | rfl
  · rwa [Frame.child_above]
  · rw [Frame.child_other_above]
    exact hother.level hlies

theorem Gap.level (h : Gap color n path) (hdraws : t.Draws (path.plug s)) (hs : t.Level s.link n) :
    ∃ m, t.Level t.root m := by
  induction h generalizing s with
  | top =>
      have hroot : t.root = s.link := hdraws.root
      exact ⟨_, hroot ▸ hs⟩
  | @red n f path hcolor hother hpath ih =>
      have hup : t.Draws (path.plug (f.fill s)) := hdraws
      have hlevel := level_fill (lies_plug.1 hdraws.lies).2 hs hother
      rw [hcolor] at hlevel
      exact ih hup hlevel
  | @black n color color' f path hcolor hother hpath ih =>
      have hup : t.Draws (path.plug (f.fill s)) := hdraws
      have hlevel := level_fill (lies_plug.1 hdraws.lies).2 hs hother
      rw [hcolor] at hlevel
      exact ih hup hlevel

/-- A red row around the hole has no red child, but the shape that fills the hole if it is to be
black and is not. -/
theorem Gap.red_row (h : Gap color n path) (hpath : Surrounds t.rows hole path)
    (hi : i ∈ path.indices) (hr : t.rows[i]? = some r) (hred : r.color = .red) (side : Side) :
    r.child side = hole ∧ color = .black ∨ t.color? (r.child side) = some .black := by
  induction h generalizing hole with
  | top => exact absurd hi List.not_mem_nil
  | @red n f path hcolor hother _ ih =>
      obtain ⟨hrow, hlies, hrest⟩ := hpath
      simp only [Path.indices, List.mem_cons, List.mem_append] at hi
      rcases hi with rfl | hi | hi
      · obtain rfl := Option.some.inj (hrow.symm.trans hr)
        rcases Side.eq_or_other side f.side with rfl | rfl
        · exact .inl ⟨Frame.child_above, rfl⟩
        · rw [Frame.child_other_above, hlies.color?_link, hother.color_eq]
          exact .inr rfl
      · exact .inr (hother.red_row hlies hi hr hred side)
      · exact .inr ((ih hrest hi).resolve_left fun h => by cases h.2)
  | @black n color color' f path hcolor hother _ ih =>
      have hblack := hpath.color?_row
      obtain ⟨hrow, hlies, hrest⟩ := hpath
      simp only [Path.indices, List.mem_cons, List.mem_append] at hi
      rcases hi with rfl | hi | hi
      · obtain rfl := Option.some.inj (hrow.symm.trans hr)
        rw [Frame.color_above, hcolor] at hred
        cases hred
      · exact .inr (hother.red_row hlies hi hr hred side)
      · refine .inr ((ih hrest hi).elim (fun h => ?_) id)
        rw [h.1, hblack, hcolor]

/-- The root is black, but for the shape that fills the hole if it is to be black and is not. -/
theorem Gap.root_row (h : Gap color n path) (hpath : Surrounds t.rows hole path) :
    path.rootLink hole = hole ∧ color = .black ∨ t.color? (path.rootLink hole) = some .black := by
  induction h generalizing hole with
  | top => exact .inl ⟨rfl, rfl⟩
  | red _ _ _ ih => exact .inr ((ih hpath.2.2).resolve_left fun h => by cases h.2)
  | @black n color color' f path hcolor _ _ ih =>
      refine .inr ((ih hpath.2.2).elim (fun h => ?_) id)
      rw [Path.rootLink, h.1, hpath.color?_row, hcolor]

end Gaps

section Except

section Frames

variable (h : t.RedBlackExcept row) (hdraws : t.Draws (Path.plug (.under f path) s))
variable (hrow : row ∈ s.indices)

include hdraws hrow in
theorem row_outside : f.row ≠ row ∧ row ∉ f.other.indices := by
  have hnodup := List.nodup_append.1 (Path.indices_plug.nodup_iff.1 hdraws.nodup)
  simp only [Path.indices, List.mem_cons, List.mem_append] at hnodup
  exact ⟨fun heq => hnodup.2.2 row hrow f.row (.inl rfl) heq.symm,
    fun hmem => hnodup.2.2 row hrow row (.inr (.inl hmem)) rfl⟩

include h hdraws hrow in
/-- The rows beside the one that may break the rules keep them. -/
theorem RedBlackExcept.fair_other (hlevel : t.Level f.other.link n) :
    Fair f.other.color n f.other := by
  obtain ⟨-, hother, -⟩ := (lies_plug.1 hdraws.lies).2
  have hout := (row_outside hdraws hrow).2
  exact hother.fair hlevel fun i hi r side hr hred =>
    (h.red side hr hred).resolve_left fun hchild => hout (hother.mem_of_child hi hr hchild)

include h hdraws hrow in
/-- Below a red row nothing but the row that may break the rules is red. -/
theorem RedBlackExcept.black_below (hcolor : f.color = .red) :
    f.other.color = .black ∧ (if s.link = some row then Color.black else s.color) = .black := by
  obtain ⟨hs, hrowF, hother, -⟩ := lies_plug.1 hdraws.lies
  have hchild (side : Side) := h.red side hrowF (Frame.color_above.trans hcolor)
  constructor
  · have hblack := hchild f.side.other
    rw [Frame.child_other_above, hother.color?_link, Option.some.injEq] at hblack
    exact hblack.resolve_left fun hlink =>
      (row_outside hdraws hrow).2 (Shape.mem_indices_of_link hlink)
  · have hblack := hchild f.side
    rw [Frame.child_above, hs.color?_link, Option.some.injEq] at hblack
    split
    · rfl
    · exact hblack.resolve_left ‹_›

include h hdraws hrow in
theorem RedBlackExcept.gap_under (hlevel : t.Level (some f.row) m) (hgap : Gap f.color m path) :
    ∃ n, t.Level s.link n ∧
      Gap (if s.link = some row then .black else s.color) n (.under f path) := by
  obtain ⟨hs, hrowF, -⟩ := lies_plug.1 hdraws.lies
  have hnear := hlevel.child hrowF f.side
  have hfar := hlevel.child hrowF f.side.other
  rw [Frame.child_above, Frame.color_above] at hnear
  rw [Frame.child_other_above, Frame.color_above] at hfar
  have hother := h.fair_other hdraws hrow hfar
  cases hcolor : f.color with
  | red =>
      obtain ⟨hblack, hhole⟩ := h.black_below hdraws hrow hcolor
      rw [hcolor] at hnear hother hgap
      rw [hblack] at hother
      rw [hhole]
      exact ⟨m, hnear, .red hcolor hother hgap⟩
  | black =>
      -- A way down through the row meets it, so `m` is not zero.
      obtain ⟨rows, blacks, hd⟩ := hs.exists_descends
      have hm := hlevel (rows + 1) _ (.row f.side hrowF (by rwa [Frame.child_above]))
      rw [Frame.color_above, hcolor] at hm
      obtain rfl : blacks + 1 = m := hm
      rw [hcolor] at hnear hother hgap
      exact ⟨blacks, hnear, .black hcolor hother hgap⟩

end Frames

/-- Around the row that may break the rules the path has a gap for a black shape. -/
theorem RedBlackExcept.gap (h : t.RedBlackExcept row) (hdraws : t.Draws (path.plug s))
    (hrow : row ∈ s.indices) : ∃ n, t.Level s.link n ∧
      Gap (if s.link = some row then .black else s.color) n path := by
  induction path generalizing s with
  | top =>
      obtain ⟨n, hlevel⟩ := h.balanced
      have hroot : t.root = s.link := hdraws.root
      refine ⟨n, hroot ▸ hlevel, ?_⟩
      split
      · exact .top
      · cases s with
        | leaf => exact absurd hrow List.not_mem_nil
        | node i k color l u =>
            have hcolor := (h.root hroot).resolve_left fun hi => ‹¬_› (congrArg some hi)
            have hlink : t.color? (some i) = some color := hdraws.lies.color?_link
            obtain rfl := Option.some.inj (hlink.symm.trans hcolor)
            exact .top
  | under f path ih =>
      have hup : t.Draws (path.plug (f.fill s)) := hdraws
      have hfill : row ∈ (f.fill s).indices := Shape.indices_fork.mem_iff.2
        (List.mem_cons_of_mem _ (List.mem_append_left _ hrow))
      -- The gap around the filled frame tells how many black rows are below it and below the hole.
      obtain ⟨m, hlevel, hgap⟩ := ih hup hfill
      have hne : some f.row ≠ some row := by simpa using (row_outside hdraws hrow).1
      rw [Frame.fill, Shape.link_fork, if_neg hne, Shape.color_fork] at hgap
      rw [Frame.fill, Shape.link_fork] at hlevel
      exact h.gap_under hdraws hrow hlevel hgap

/-- What the rows say is what the repair relies on. -/
theorem RedBlackExcept.exists_repairing (h : t.RedBlackExcept row) :
    ∃ path s, Repairing t row path s ∧ (path.plug s).rows.Pairwise fun e e' => e.2 < e'.2 := by
  obtain ⟨s, hdraws⟩ := h.linked.exists_draws
  obtain ⟨r, hr, hcolor⟩ := Option.map_eq_some_iff.1 h.isRed
  obtain ⟨path, l, u, rfl, -, -, hparent⟩ := hdraws.exists_plug hr
  rw [hcolor] at hdraws
  obtain ⟨n, hlevel, hgap⟩ := h.gap hdraws (Shape.mem_indices_node.2 (.inr (.inl rfl)))
  rw [Shape.link, if_pos rfl] at hgap
  obtain ⟨keys, hkeys, hascending⟩ := h.ascending
  rw [hdraws.inOrder_unique hkeys] at hascending
  refine ⟨path, _, ⟨hdraws, rfl, n, .black, ?_, hgap⟩, List.pairwise_map.1 hascending⟩
  refine (lies_plug.1 hdraws.lies).1.fair hlevel fun i hi r' side hr' hred =>
    (h.red side hr' hred).resolve_left fun hchild => ?_
  obtain ⟨q, hq, hparent'⟩ := h.linked.child hr' hchild
  obtain rfl := Option.some.inj (hr.symm.trans hq)
  rw [hparent'] at hparent
  cases path with
  | top => cases hparent
  | under f path =>
      cases hparent
      have hnodup := Path.indices_plug.nodup_iff.1 hdraws.nodup
      exact (List.nodup_append.1 hnodup).2.2 f.row hi f.row List.mem_cons_self rfl

theorem Repairing.redBlackExcept (h : Repairing t row path s)
    (hsorted : (path.plug s).rows.Pairwise fun e e' => e.2 < e'.2) : t.RedBlackExcept row := by
  obtain ⟨hdraws, hlink, n, color, hfair, hgap⟩ := h
  obtain ⟨hlies, hpath⟩ := lies_plug.1 hdraws.lies
  have hcolor : t.color? s.link = some .red := by rw [hlies.color?_link, hfair.color_eq]
  refine ⟨hdraws.linked, ⟨_, hdraws.inOrder, List.pairwise_map.2 hsorted⟩,
    hgap.level hdraws (hfair.level hlies), hlink ▸ hcolor, fun {i} hi => ?_,
    fun {i r} side hr hred => ?_⟩
  · rw [hdraws.root, Path.link_plug] at hi
    rcases hgap.root_row hpath with ⟨hroot, -⟩ | hblack
    · rw [hroot, hlink] at hi
      exact .inl (Option.some.inj hi).symm
    · exact .inr (hi ▸ hblack)
  · have hi : i ∈ s.indices ++ path.indices :=
      (Path.indices_plug.symm.trans hdraws.indices).mem_iff.2
        (List.mem_range.2 (Array.getElem?_eq_some_iff.1 hr).1)
    rcases List.mem_append.1 hi with hi | hi
    · exact .inr (hfair.red_row hlies hi hr hred side)
    · rcases hgap.red_row hpath hi hr hred side with ⟨hchild, -⟩ | hblack
      · exact .inl (hchild.trans hlink)
      · exact .inr hblack

theorem RedBlack.sound (h : t.RedBlack) : t.Sound := by
  obtain ⟨s, hdraws⟩ := h.linked.exists_draws
  obtain ⟨n, hlevel⟩ := h.balanced
  obtain ⟨order, hvisits, -, hascending⟩ := h.visits
  have hkeys := hdraws.inOrder_unique ⟨order, hvisits, rfl⟩
  rw [hkeys] at hascending
  have hfair := hdraws.lies.fair (hdraws.root ▸ hlevel) fun i _ r side hr hred => h.red side hr hred
  have hblack : s.color = .black := by
    cases hlink : s.link with
    | none =>
        cases s with
        | leaf => rfl
        | node => cases hlink
    | some i =>
        obtain ⟨r, hr, hcolor, -⟩ := h.root (hdraws.root.trans hlink)
        have hroot := hdraws.lies.color?_link
        rw [hlink, color?, hr, Option.map_some, hcolor] at hroot
        exact (Option.some.inj hroot).symm
  exact ⟨s, n, hdraws, hblack ▸ hfair, List.pairwise_map.1 hascending⟩

end Except

end ChunkCache.RowTree
