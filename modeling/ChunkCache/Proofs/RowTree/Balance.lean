import ChunkCache.Proofs.RowTree.Rotation

/-!
The repair of a red-black tree. Before each step one red row may hang below another red row, and
nothing else is wrong; a step moves this place two rows up or ends the repair. No step follows an
absent link, changes the order of the rows, or loses one.
-/

namespace ChunkCache.RowTree

/-- The shape has no red row below a red one and the same number of black rows on every way down
from its root, which has the given color; absent rows count as black. -/
inductive Fair : Color → Nat → Shape → Prop
  | leaf : Fair .black 0 .leaf
  | red {n i : Nat} {key : Int64} {l r : Shape} (hl : Fair .black n l) (hr : Fair .black n r) :
      Fair .red n (.node i key .red l r)
  | black {n i : Nat} {key : Int64} {colorL colorR : Color} {l r : Shape} (hl : Fair colorL n l)
      (hr : Fair colorR n r) : Fair .black (n + 1) (.node i key .black l r)

/-- A fair shape with a root of the given color and the given number of black rows on every way down
completes the path to a fair shape with a black root. -/
inductive Gap : Color → Nat → Path → Prop
  | top {n : Nat} : Gap .black n .top
  | red {n : Nat} {f : Frame} {path : Path} (hcolor : f.color = .red)
      (hother : Fair .black n f.other) (hpath : Gap .red n path) : Gap .black n (.under f path)
  | black {n : Nat} {color color' : Color} {f : Frame} {path : Path} (hcolor : f.color = .black)
      (hother : Fair color' n f.other) (hpath : Gap .black (n + 1) path) :
      Gap color n (.under f path)

variable {t : RowTree} {i j k m n : Nat} {key : Int64} {color color' : Color} {side : Side}
variable {s a b l r : Shape} {f g : Frame} {path : Path}

section Fair

theorem Fair.color_eq (h : Fair color n s) : s.color = color := by
  cases h <;> rfl

theorem Fair.fork_red (ha : Fair .black n a) (hb : Fair .black n b) :
    Fair .red n (.fork i key .red side a b) := by
  cases side with
  | left => exact .red ha hb
  | right => exact .red hb ha

theorem Fair.fork_black (ha : Fair color n a) (hb : Fair color' n b) :
    Fair .black (n + 1) (.fork i key .black side a b) := by
  cases side with
  | left => exact .black ha hb
  | right => exact .black hb ha

theorem Fair.of_fork_red (h : Fair color n (.fork i key .red side a b)) :
    color = .red ∧ Fair .black n a ∧ Fair .black n b := by
  cases side with
  | left =>
      cases h with
      | red hl hr => exact ⟨rfl, hl, hr⟩
  | right =>
      cases h with
      | red hl hr => exact ⟨rfl, hr, hl⟩

theorem Fair.of_fork_black (h : Fair color n (.fork i key .black side a b)) :
    color = .black ∧ ∃ m colorA colorB, n = m + 1 ∧ Fair colorA m a ∧ Fair colorB m b := by
  cases side with
  | left =>
      cases h with
      | black hl hr => exact ⟨rfl, _, _, _, rfl, hl, hr⟩
  | right =>
      cases h with
      | black hl hr => exact ⟨rfl, _, _, _, rfl, hr, hl⟩

theorem Gap.fill (hpath : Gap color n path) (hs : Fair color n s) :
    ∃ m, Fair .black m (path.plug s) := by
  induction hpath generalizing s with
  | top => exact ⟨_, hs⟩
  | red hcolor hother hpath ih =>
      rw [Path.plug, Frame.fill, hcolor]
      exact ih (hs.fork_red hother)
  | black hcolor hother hpath ih =>
      rw [Path.plug, Frame.fill, hcolor]
      exact ih (hs.fork_black hother)

/-- Every part of a fair shape is fair, and so is the path around it. -/
theorem Gap.of_plug (h : Fair .black m (path.plug s)) :
    ∃ color n, Fair color n s ∧ Gap color n path := by
  induction path generalizing s with
  | top => exact ⟨.black, m, h, .top⟩
  | under f path ih =>
      obtain ⟨color, n, hfill, hpath⟩ := ih h
      rw [Frame.fill] at hfill
      cases hcolor : f.color with
      | red =>
          rw [hcolor] at hfill
          obtain ⟨rfl, hs, hother⟩ := hfill.of_fork_red
          exact ⟨_, n, hs, .red hcolor hother hpath⟩
      | black =>
          rw [hcolor] at hfill
          obtain ⟨rfl, k, colorS, colorO, rfl, hs, hother⟩ := hfill.of_fork_black
          exact ⟨_, k, hs, .black hcolor hother hpath⟩

theorem Fair.exists_fork (h : Fair .red n s) (side : Side) :
    ∃ i key a b, s = .fork i key .red side a b := by
  cases h with
  | red hl hr =>
      cases side with
      | left => exact ⟨_, _, _, _, rfl⟩
      | right => exact ⟨_, _, _, _, rfl⟩

end Fair

theorem paint_spec (color' : Color)
    (h : t.Draws (path.plug (.fork i key color side a b))) :
    ∃ t', t.paint i color' = some t' ∧ t'.size = t.size ∧
      t'.Draws (path.plug (.fork i key color' side a b)) := by
  obtain ⟨hfocus, hpath⟩ := lies_plug.1 h.lies
  obtain ⟨hi, ha, hb⟩ := lies_fork.1 hfocus
  have hnodup := (Path.indices_plug.trans
    (Shape.indices_fork.append_right _)).nodup_iff.1 h.nodup
  simp only [List.cons_append, List.nodup_cons, List.mem_append, not_or] at hnodup
  obtain ⟨⟨⟨hia, hib⟩, hip⟩, -⟩ := hnodup
  obtain ⟨t', hupdate, hwrites⟩ := update_writes (f := fun r => { r with color := color' }) hi
  refine ⟨t', hupdate, hwrites.size, ?_, ?_, ?_⟩
  · rw [hwrites.root, h.root]
    simp only [Path.link_plug, Shape.link_fork]
  · simp only [lies_plug, lies_fork, Shape.link_fork] at hpath ⊢
    refine ⟨⟨?_, hwrites.lies ha hia, hwrites.lies hb hib⟩, hwrites.surrounds hpath hip⟩
    rw [hwrites.row, Row.linked_withColor]
  · have hindices := h.indices
    rw [Shape.indices, Path.rows_plug, Shape.rows_fork rfl rfl, ← Path.rows_plug] at hindices
    rw [hwrites.size]
    exact hindices

/-- The grandparent of the outer row goes down, and its parent, now black, comes up. -/
theorem turnGrandparent_spec {x y u : Shape} {row p g : Nat} {keyP keyG : Int64}
    (h : t.Draws (path.plug (.fork g keyG color side (.fork p keyP color' side x y) u)))
    (hx : x.link = some row) :
    ∃ t', t.turnGrandparent row side = some t' ∧
      t'.Draws (path.plug (.fork p keyP .black side x (.fork g keyG .red side y u))) := by
  have hrow : t.Draws (Path.plug (.under ⟨p, keyP, color', side, y⟩
      (.under ⟨g, keyG, color, side, u⟩ path)) x) := h
  have hp : t.Draws (Path.plug (.under ⟨g, keyG, color, side, u⟩ path)
      (.fork p keyP color' side x y)) := h
  obtain ⟨r, hr, hparent, -⟩ := hrow.row_of_link hx
  obtain ⟨q, hq, hgrand, -⟩ := hp.row_of_link Shape.link_fork
  obtain ⟨t₁, hpaint₁, -, h₁⟩ := paint_spec .black hp
  have hg : t₁.Draws (path.plug (.fork g keyG color side (.fork p keyP .black side x y) u)) := h₁
  obtain ⟨t₂, hpaint₂, -, h₂⟩ := paint_spec .red hg
  have hturn : (Shape.fork g keyG .red side (.fork p keyP .black side x y) u) =
      .fork g keyG .red side.other u (.fork p keyP .black side.other y x) := by
    rw [Shape.fork_other, Shape.fork_other]
  rw [hturn] at h₂
  obtain ⟨t₃, hrotate, -, h₃⟩ := rotate_spec h₂
  rw [Shape.fork_other, Shape.fork_other] at h₃
  refine ⟨t₃, ?_, h₃⟩
  simp only [turnGrandparent, hr, hq, hparent, hgrand, Path.parent, Option.bind_eq_bind,
    Option.bind_some, hpaint₁, hpaint₂]
  exact hrotate

/-- The outer one of the two red rows hangs below the other one, on the outer side. -/
theorem bringOut_spec {p : Nat} {keyP : Int64} {sideP : Side}
    (h : t.Draws (path.plug (.fork p keyP .red sideP s a))) (hi : s.link = some i)
    (hs : Fair .red n s) (ha : Fair .black n a) (side : Side) :
    ∃ t' j q keyQ x y, t.bringOut i p side = some (t', j) ∧ x.link = some j ∧
      t'.Draws (path.plug (.fork q keyQ .red side x y)) ∧ Fair .red n x ∧ Fair .black n y ∧
      (Shape.fork q keyQ .red side x y).rows = (Shape.fork p keyP .red sideP s a).rows := by
  obtain ⟨hp, -, -⟩ := lies_fork.1 (lies_plug.1 h.lies).1
  rcases Side.eq_or_other sideP side with rfl | rfl
  · refine ⟨t, i, p, keyP, s, a, ?_, hi, h, hs, ha, rfl⟩
    have hia : a.link ≠ some i := fun hlink =>
      h.disjoint (Shape.mem_indices_of_link hi) (Shape.mem_indices_of_link hlink)
    simp only [bringOut, hp, Option.bind_eq_bind, Option.bind_some, Row.child_other_linked]
    exact if_neg hia
  · obtain ⟨j, key, b, c, rfl⟩ := hs.exists_fork side
    rw [Shape.link_fork] at hi
    cases hi
    obtain ⟨-, hb, hc⟩ := hs.of_fork_red
    rw [Shape.fork_other] at h
    obtain ⟨t', hrotate, -, h'⟩ := rotate_spec h
    refine ⟨t', p, i, key, _, c, ?_, Shape.link_fork, h', .fork_red ha hb, hc, ?_⟩
    · simp only [bringOut, hp, Option.bind_eq_bind, Option.bind_some, Row.linked_other,
        Row.child_other_linked, Shape.link_fork, hrotate]
      rfl
    · rw [Shape.fork_other, Shape.rows_turn]

/-- Row `i` is red, and nothing is wrong except that it may hang below a red row. -/
structure Repairing (t : RowTree) (i : Nat) (path : Path) (s : Shape) : Prop where
  draws : t.Draws (path.plug s)
  link : s.link = some i
  gap : ∃ n color, Fair .red n s ∧ Gap color n path

/-- A repair by rotations ends below a black row. -/
theorem repairByRotation_spec (h : t.Draws (Path.plug (.under f (.under g path)) s))
    (hi : s.link = some i) (hf : f.color = .red) (hs : Fair .red n s)
    (hother : Fair .black n f.other) (huncle : Fair .black n g.other)
    (hpath : Gap .black (n + 1) path) :
    ∃ t' j f' x, t.repairByRotation i f.row g.side = some (t', j) ∧
      Repairing t' j (.under f' path) x ∧ f'.color = .black ∧
      (Path.plug (.under f' path) x).rows = (Path.plug (.under f (.under g path)) s).rows := by
  have hp : t.Draws (Path.plug (.under g path) (.fork f.row f.key .red f.side s f.other)) := by
    rw [← hf]
    exact h
  obtain ⟨t₁, j, q, keyQ, x, y, hbring, hx, h₁, hfairX, hfairY, hrows⟩ :=
    bringOut_spec hp hi hs hother g.side
  obtain ⟨t₂, hturn, h₂⟩ := turnGrandparent_spec h₁ hx
  refine ⟨t₂, j, ⟨q, keyQ, .black, g.side, .fork g.row g.key .red g.side y g.other⟩, x, ?_,
    ⟨h₂, hx, n, .red, hfairX, .black rfl (.fork_red hfairY huncle) hpath⟩, rfl, ?_⟩
  · simp only [repairByRotation, Option.bind_eq_bind, hbring, Option.bind_some, hturn]
  · simp only [Path.plug, Path.rows_plug]
    have hfill : (g.fill (f.fill s)).rows = (Frame.fill ⟨q, keyQ, .black, g.side,
        .fork g.row g.key .red g.side y g.other⟩ x).rows := by
      calc (g.fill (f.fill s)).rows
        _ = (Shape.fork g.row g.key g.color g.side (.fork q keyQ .red g.side x y) g.other).rows :=
            Shape.rows_fork ((Shape.rows_fork rfl rfl).trans hrows.symm) rfl
        _ = _ := Shape.rows_turn.symm
    rw [hfill]

theorem recolor_spec {p u k : Nat} {keyP keyU : Int64} {sideP : Side} {colorP colorU : Color}
    (h : t.Draws (path.plug (.fork k key color side (.fork p keyP colorP sideP s a)
      (.node u keyU colorU l r)))) :
    ∃ t', t.recolor p u k = some t' ∧ t'.Draws (path.plug (.fork k key .red side
      (.fork p keyP .black sideP s a) (.node u keyU .black l r))) := by
  have hp : t.Draws (Path.plug (.under ⟨k, key, color, side, .node u keyU colorU l r⟩ path)
      (.fork p keyP colorP sideP s a)) := h
  obtain ⟨t₁, hpaint₁, -, h₁⟩ := paint_spec .black hp
  have hu : t₁.Draws (Path.plug (.under ⟨k, key, color, side.other, .fork p keyP .black sideP s a⟩
      path) (.fork u keyU colorU .left l r)) := by
    rw [Path.plug_other]
    exact h₁
  obtain ⟨t₂, hpaint₂, -, h₂⟩ := paint_spec .black hu
  rw [Path.plug_other] at h₂
  obtain ⟨t₃, hpaint₃, -, h₃⟩ := paint_spec .red h₂
  refine ⟨t₃, ?_, h₃⟩
  simp only [recolor, Option.bind_eq_bind, hpaint₁, hpaint₂, Option.bind_some]
  exact hpaint₃

/-- A step of the repair finds the parent of its row, the grandparent and the uncle. -/
theorem repairStep_eq (h : t.Draws (Path.plug (.under f (.under g path)) s))
    (hi : s.link = some i) :
    t.repairStep i = t.repairBelow i f.row g.row g.side g.other.link := by
  have hp : t.Draws (Path.plug (.under g path) (.fork f.row f.key f.color f.side s f.other)) := h
  have hgrand : t.Draws (path.plug (.fork g.row g.key g.color g.side
      (.fork f.row f.key f.color f.side s f.other) g.other)) := h
  obtain ⟨r, hr, hparent, -⟩ := h.row_of_link hi
  obtain ⟨q, hq, hq', -⟩ := hp.row_of_link Shape.link_fork
  obtain ⟨-, hrowG, -⟩ := lies_plug.1 hp.lies
  rw [Shape.link_fork] at hrowG
  have hside := Frame.side_eq path.parent
    (hgrand.disjoint (Shape.mem_indices_of_link Shape.link_fork))
  change r.parent = some f.row at hparent
  change q.parent = some g.row at hq'
  simp only [repairStep, hr, hparent, Option.bind_eq_bind, Option.bind_some, hanging, hq, hq',
    hrowG, hside, Frame.child_other_above]

/-- A step of the repair below a red row keeps the order of the rows. It ends the repair, at a row
below a black one, or brings it to the grandparent. -/
theorem repairStep_spec (h : Repairing t i (.under f path) s) (hf : f.color = .red) :
    ∃ g above, path = .under g above ∧ ∃ t' j path' s', t.repairStep i = some (t', j) ∧
      Repairing t' j path' s' ∧ (path'.plug s').rows = (Path.plug (.under f path) s).rows ∧
      ((∃ f', path' = .under f' above ∧ f'.color = .black) ∨ path' = above ∧ j = g.row) := by
  obtain ⟨hdraws, hlink, n, color, hs, hgap⟩ := h
  cases hgap with
  | black hcolor => simp [hf] at hcolor
  | red _ hother hgap =>
  cases hgap with
  | @black _ _ colorU g path hg huncle hgap =>
  rw [repairStep_eq hdraws hlink]
  refine ⟨g, path, rfl, ?_⟩
  have hrotate (hblack : colorU = .black) : ∃ t' j path' s',
      t.repairByRotation i f.row g.side = some (t', j) ∧ Repairing t' j path' s' ∧
        (path'.plug s').rows = (Path.plug (.under f (.under g path)) s).rows ∧
        ((∃ f', path' = .under f' path ∧ f'.color = .black) ∨ path' = path ∧ j = g.row) := by
    rw [hblack] at huncle
    obtain ⟨t', j, f', x, hrepair, h', hf', hrows⟩ :=
      repairByRotation_spec hdraws hlink hf hs hother huncle hgap
    exact ⟨t', j, _, x, hrepair, h', hrows, .inl ⟨f', rfl, hf'⟩⟩
  cases hU : g.other with
  | leaf =>
      rw [hU] at huncle
      cases huncle
      exact hrotate rfl
  | node u keyU colorU' l r =>
      have hgrand : t.Draws (path.plug (.fork g.row g.key g.color g.side
          (.fork f.row f.key f.color f.side s f.other) g.other)) := hdraws
      have hcolor := (lies_fork.1 (lies_plug.1 hgrand.lies).1).2.2.color?_link
      rw [hU] at huncle hgrand hcolor
      simp only [Shape.link, Shape.color] at hcolor
      simp only [Shape.link, repairBelow, hcolor, Option.bind_eq_bind, Option.bind_some]
      cases huncle with
      | black hl hr => exact hrotate rfl
      | red hl hr =>
          obtain ⟨t', hrecolor, h'⟩ := recolor_spec hgrand
          refine ⟨t', g.row, path, _, ?_, ⟨h', Shape.link_fork, n + 1, .black,
            .fork_red (.fork_black hs hother) (.black hl hr), hgap⟩, ?_, .inr ⟨rfl, rfl⟩⟩
          · rw [if_pos rfl, hrecolor]
            rfl
          · simp only [Path.plug, Path.rows_plug]
            have hfill : (g.fill (f.fill s)).rows = (Shape.fork g.row g.key .red g.side
                (.fork f.row f.key .black f.side s f.other) (.node u keyU .black l r)).rows := by
              rw [Frame.fill, hU]
              exact Shape.rows_fork (Shape.rows_fork rfl rfl) rfl
            rw [hfill]

theorem Path.mem_indices_of_rootLink (h : path.rootLink (some f.row) = some i) :
    i ∈ (under f path).indices := by
  induction path generalizing f with
  | top =>
      cases h
      exact List.mem_cons_self
  | under g path ih => exact List.mem_cons_of_mem _ (List.mem_append_right _ (ih h))

theorem underRed_top (h : t.Draws s) (hi : s.link = some i) : t.underRed i = some false :=
  if_pos (h.root.trans hi)

theorem underRed_under (h : t.Draws (Path.plug (.under f path) s)) (hi : s.link = some i) :
    t.underRed i = some (decide (f.color = .red)) := by
  have hnodup := Path.indices_plug.nodup_iff.1 h.nodup
  have hroot : t.root ≠ some i := by
    intro hroot
    rw [h.root, Path.link_plug] at hroot
    have hmem := Path.mem_indices_of_rootLink hroot
    exact (List.nodup_append.1 hnodup).2.2 i (Shape.mem_indices_of_link hi) i hmem rfl
  obtain ⟨r, hr, hparent, -⟩ := h.row_of_link hi
  change r.parent = some f.row at hparent
  have hcolor : t.color? (some f.row) = some f.color := (lies_plug.1 h.lies).2.color?_row
  rw [underRed, if_neg hroot]
  simp only [Option.bind_eq_bind, hr, Option.bind_some, hparent, hcolor]

theorem blackenRoot_spec (h : t.Draws s) (hs : Fair color n s) :
    ∃ t' s', t.blackenRoot = some t' ∧ t'.Draws s' ∧ (∃ m, Fair .black m s') ∧
      s'.rows = s.rows := by
  cases s with
  | leaf =>
      refine ⟨t, .leaf, ?_, h, ⟨0, .leaf⟩, rfl⟩
      have hroot : t.root = none := h.root
      rw [blackenRoot, hroot]
  | node i key color' l r =>
      have hfork : t.Draws (Path.plug .top (.fork i key color' .left l r)) := h
      obtain ⟨t', hpaint, -, h'⟩ := paint_spec .black hfork
      have hroot : t.root = some i := h.root
      refine ⟨t', .node i key .black l r, ?_, h', ?_, rfl⟩
      · rw [blackenRoot, hroot]
        exact hpaint
      · cases hs with
        | red hl hr => exact ⟨_, .black hl hr⟩
        | black hl hr => exact ⟨_, .black hl hr⟩

/-- A red row below a black one is in order. -/
theorem Repairing.fair (h : Repairing t i (.under f path) s) (hf : f.color ≠ .red) :
    ∃ m, Fair .black m (Path.plug (.under f path) s) := by
  obtain ⟨n, color, hs, hgap⟩ := h.gap
  cases hgap with
  | red hred => exact absurd hred hf
  | black hblack hother hgap => exact (Gap.black hblack hother hgap).fill hs

/-- The repair ends with a red-black tree of the same rows in the same order. -/
theorem repair_spec {steps : Nat} (h : Repairing t i path s) (hsteps : path.length < steps) :
    ∃ t' s', repair steps t i = some t' ∧ t'.Draws s' ∧ (∃ m, Fair .black m s') ∧
      s'.rows = (path.plug s).rows := by
  induction steps generalizing t i path s with
  | zero => exact absurd hsteps (Nat.not_lt_zero _)
  | succ steps ih =>
      cases path with
      | top =>
          obtain ⟨n, color, hs, -⟩ := h.gap
          have hunder := underRed_top h.draws h.link
          obtain ⟨t', s', hblacken, h', hfair, hrows⟩ := blackenRoot_spec h.draws hs
          refine ⟨t', s', ?_, h', hfair, hrows⟩
          simp only [repair, hunder, Option.bind_eq_bind, Option.bind_some]
          exact hblacken
      | under f path =>
          have hunder := underRed_under h.draws h.link
          simp only [repair, hunder, Option.bind_eq_bind, Option.bind_some, decide_eq_true_eq]
          split
          · rename_i hf
            obtain ⟨g, above, rfl, t', j, path', s', hstep, h', hrows, hplace⟩ :=
              repairStep_spec h hf
            rw [hstep]
            have hshorter : path'.length < steps := by
              simp only [Path.length] at hsteps
              obtain ⟨f', rfl, -⟩ | ⟨rfl, -⟩ := hplace
              · exact Nat.lt_of_succ_lt_succ hsteps
              · omega
            obtain ⟨t'', s'', hrepair, h'', hfair, hrows'⟩ := ih h' hshorter
            exact ⟨t'', s'', hrepair, h'', hfair, hrows'.trans hrows⟩
          · rename_i hf
            obtain ⟨m, hfair⟩ := h.fair hf
            exact blackenRoot_spec h.draws hfair

end ChunkCache.RowTree
