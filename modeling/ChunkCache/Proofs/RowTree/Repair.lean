import ChunkCache.Proofs.RowTree.Rules

/-!
The loops of an insertion. They have no bound on their steps, so they are told by the links alone,
each as a relation: a derivation is a loop that comes to an end and meets no absent row. The search
goes down to the place of the key. From the row that is hung there the repair goes up, and before
and after each of its iterations one red row at most breaks the rules of a red-black tree.
-/

namespace ChunkCache.RowTree

variable {t t' : RowTree} {row row' parent grand steps : Nat} {key : Int64} {side : Side}
variable {color : Color} {place : Place}

/-- The search for `key` from a row downwards. -/
inductive Seeks (t : RowTree) (key : Int64) : (i : Nat) → Place → Prop
  | present {i : Nat} {r : Row} (hi : t.rows[i]? = some r) (hkey : key = r.key) :
      t.Seeks key i .present
  | vacant {i : Nat} {r : Row} (hi : t.rows[i]? = some r) (hkey : key ≠ r.key)
      (hchild : r.child (sideOf key r.key) = none) : t.Seeks key i (.vacant i (sideOf key r.key))
  | down {i child : Nat} {r : Row} {place : Place} (hi : t.rows[i]? = some r) (hkey : key ≠ r.key)
      (hchild : r.child (sideOf key r.key) = some child) (h : t.Seeks key child place) :
      t.Seeks key i place

/-- The row hangs from `parent`, which hangs on `side` of `grand`. -/
structure Hangs (t : RowTree) (row parent grand : Nat) (side : Side) : Prop where
  above : t.parent? row = some parent
  aboveThat : t.parent? parent = some grand
  isChild : t.child? grand side = some parent

/-- One iteration of the repair, at a red row under the red `parent`, and the row at which the
repair goes on. No row that it reads or writes is absent. -/
inductive Mends (t : RowTree) (row parent grand : Nat) (side : Side) :
    (t' : RowTree) → (row' : Nat) → Prop
  /-- The sibling of the parent is red. -/
  | recolor {uncle : Nat} {t' : RowTree} (huncle : t.child? grand side.other = some uncle)
      (hcolor : t.color? (some uncle) = some .red) (h : t.recolor parent uncle grand = some t') :
      t.Mends row parent grand side t' grand
  | outer {t₁ t₂ t' : RowTree} (huncle : t.color? (t.child? grand side.other) = some .black)
      (hrow : t.child? parent side = some row) (hparent : t.paint parent .black = some t₁)
      (hgrand : t₁.paint grand .red = some t₂) (hturn : t₂.Turns side.other grand parent t') :
      t.Mends row parent grand side t' row
  /-- The row comes up before the grandparent goes down. -/
  | inner {t₁ t₂ t₃ t' : RowTree} (huncle : t.color? (t.child? grand side.other) = some .black)
      (hrow : t.child? parent side.other = some row) (hinner : t.Turns side parent row t₁)
      (hangs : t₁.Hangs parent row grand side) (hparent : t₁.paint row .black = some t₂)
      (hgrand : t₂.paint grand .red = some t₃) (houter : t₃.Turns side.other grand row t') :
      t.Mends row parent grand side t' parent

/-- What one iteration of the repair does: it is the last one, or the red row that may break the
rules is the grandparent after it. -/
structure Iteration (t : RowTree) (row : Nat) (t' : RowTree) (row' : Nat) : Prop where
  step : t.repairStep row = some (t', row')
  mends : ∃ parent grand side, t.Hangs row parent grand side ∧
    t.Mends row parent grand side t' row' ∧
    (t'.RedBlack ∧ t'.underRed row' = some false ∨ row' = grand)
  except : t'.RedBlackExcept row'
  keys : t'.keys = t.keys
  inOrder : ∀ keys, t.InOrder keys → t'.InOrder keys

/-- The loop of the repair from a row upwards. -/
inductive Repairs : (t : RowTree) → (row : Nat) → (t' : RowTree) → Prop
  | done {t t' : RowTree} {row : Nat} (hunder : t.underRed row = some false)
      (h : t.blackenRoot = some t') : Repairs t row t'
  | again {t t₁ t' : RowTree} {row row₁ : Nat} (hunder : t.underRed row = some true)
      (h : t.Iteration row t₁ row₁) (hrest : Repairs t₁ row₁ t') : Repairs t row t'

/-- A search that ends within some steps ends. -/
theorem seeks_of_descend {i : Nat} (h : t.descend key steps i = some place) :
    t.Seeks key i place := by
  induction steps generalizing i with
  | zero => cases h
  | succ steps ih =>
      obtain ⟨r, hr, h⟩ := Option.bind_eq_some_iff.1 h
      split at h
      · cases h
        exact .present hr ‹_›
      · split at h
        · cases h
          exact .vacant hr ‹_› ‹_›
        · exact .down hr ‹_› ‹_› (ih h)

section Iterations

theorem hangs_of_hanging (h : t.Linked) (hparent : t.parent? row = some parent)
    (hhanging : t.hanging parent = some (side, grand)) : t.Hangs row parent grand side := by
  obtain ⟨p, hp, hhanging⟩ := Option.bind_eq_some_iff.1 hhanging
  obtain ⟨grand', hgrand, hhanging⟩ := Option.bind_eq_some_iff.1 hhanging
  obtain ⟨g, hg, hhanging⟩ := Option.bind_eq_some_iff.1 hhanging
  obtain ⟨hside, rfl⟩ := Prod.mk.inj (Option.some.inj hhanging)
  refine ⟨hparent, (parent?_eq hp).trans hgrand, ?_⟩
  obtain ⟨q, side', hq, hchild⟩ := h.parent hp hgrand
  obtain rfl := Option.some.inj (hg.symm.trans hq)
  rw [child?_eq hg, ← hside]
  split
  · assumption
  · cases side' with
    | left => exact absurd hchild ‹_›
    | right => exact hchild

theorem bind_modify {α : Type} {rows : Array Row} {f : Row → Row} {g : Row → Option α}
    (h : ∀ r, g (f r) = g r) (i j : Nat) : (rows.modify i f)[j]?.bind g = rows[j]?.bind g := by
  rw [Array.getElem?_modify]
  split
  · cases rows[j]? with
    | none => rfl
    | some r => exact h r
  · rfl

/-- A painted row keeps its links. -/
theorem paint_links {i : Nat} (h : t.paint i color = some t') :
    t'.parent? = t.parent? ∧ t'.child? = t.child? := by
  unfold paint update at h
  split at h
  · cases h
    refine ⟨funext fun j => ?_, funext fun j => funext fun side => ?_⟩
    · exact bind_modify (f := fun r => { r with color }) (g := Row.parent) (fun _ => rfl) i j
    · exact bind_modify (f := fun r => { r with color }) (g := (Row.child · side))
        (fun _ => by cases side <;> rfl) i j
  · cases h

theorem Linked.paint {i : Nat} (h : t.Linked) (hpaint : t.paint i color = some t') : t'.Linked := by
  obtain ⟨s, hdraws⟩ := h.exists_draws
  have hi : i < t.size := by
    unfold RowTree.paint update at hpaint
    split at hpaint
    · assumption
    · cases hpaint
  obtain ⟨path, k, color', l, u, rfl⟩ := Shape.exists_plug
    (hdraws.indices.mem_iff.2 (List.mem_range.2 hi))
  have hfork : t.Draws (path.plug (.fork i k color' .left l u)) := hdraws
  obtain ⟨t₁, hpaint₁, -, h₁⟩ := paint_spec color hfork
  obtain rfl := Option.some.inj (hpaint₁.symm.trans hpaint)
  exact h₁.linked

/-- The grandparent goes down and the parent takes its place. -/
theorem turns_of_turnGrandparent (h : t.Linked) (hhangs : t.Hangs row parent grand side)
    (hturn : t.turnGrandparent row side = some t') :
    ∃ t₁ t₂, t.paint parent .black = some t₁ ∧ t₁.paint grand .red = some t₂ ∧
      t₂.Turns side.other grand parent t' := by
  obtain ⟨r, hr, hturn⟩ := Option.bind_eq_some_iff.1 hturn
  obtain ⟨parent', hparent, hturn⟩ := Option.bind_eq_some_iff.1 hturn
  obtain ⟨p, hp, hturn⟩ := Option.bind_eq_some_iff.1 hturn
  obtain ⟨grand', hgrand, hturn⟩ := Option.bind_eq_some_iff.1 hturn
  obtain ⟨t₁, hpaint₁, hturn⟩ := Option.bind_eq_some_iff.1 hturn
  obtain ⟨t₂, hpaint₂, hrotate⟩ := Option.bind_eq_some_iff.1 hturn
  obtain rfl := Option.some.inj (hparent.symm.trans ((parent?_eq hr).symm.trans hhangs.above))
  obtain rfl := Option.some.inj (hgrand.symm.trans ((parent?_eq hp).symm.trans hhangs.aboveThat))
  have hpivot : t₂.child? grand' side.other.other = some parent' := by
    rw [Side.other_other, (paint_links hpaint₂).2, (paint_links hpaint₁).2, hhangs.isChild]
  obtain ⟨t₃, hturns⟩ := ((h.paint hpaint₁).paint hpaint₂).turns hpivot
  obtain rfl := Option.some.inj (hrotate.symm.trans hturns.rotate)
  exact ⟨t₁, t₂, hpaint₁, hpaint₂, hturns⟩

/-- The parent goes down if the row hangs on its inner side. -/
theorem mends_of_repairByRotation (h : t.Linked) (hhangs : t.Hangs row parent grand side)
    (huncle : t.color? (t.child? grand side.other) = some .black)
    (hrepair : t.repairByRotation row parent side = some (t', row')) :
    t.Mends row parent grand side t' row' := by
  obtain ⟨⟨t₁, lower⟩, hbring, hrepair⟩ := Option.bind_eq_some_iff.1 hrepair
  obtain ⟨t₂, hturn, hrepair⟩ := Option.bind_eq_some_iff.1 hrepair
  cases hrepair
  obtain ⟨p, hp, hbring⟩ := Option.bind_eq_some_iff.1 hbring
  split at hbring
  · have hrow : t.child? parent side.other = some row := (child?_eq hp).trans ‹_›
    obtain ⟨t₁, hrotate, heq⟩ := Option.map_eq_some_iff.1 hbring
    obtain ⟨rfl, rfl⟩ := Prod.mk.inj heq
    obtain ⟨t₃, hturns⟩ := h.turns hrow
    obtain rfl := Option.some.inj (hrotate.symm.trans hturns.rotate)
    obtain ⟨q, hq, hchild⟩ := Option.bind_eq_some_iff.1 hturns.child_pivot
    obtain ⟨r, hr, hparent⟩ := hturns.linked.child hq hchild
    -- The row stands where the parent stood, and the parent hangs from it.
    have hhangs' : t₁.Hangs parent row grand side := ⟨(parent?_eq hr).trans hparent,
      hturns.parent_pivot.trans hhangs.aboveThat, hturns.child_above grand side hhangs.isChild⟩
    obtain ⟨t₄, t₅, hpaint₄, hpaint₅, houter⟩ :=
      turns_of_turnGrandparent hturns.linked hhangs' hturn
    exact .inner huncle hrow hturns hhangs' hpaint₄ hpaint₅ houter
  · cases hbring
    obtain ⟨r, hr, hparent⟩ := Option.bind_eq_some_iff.1 hhangs.above
    obtain ⟨q, side', hq, hchild⟩ := h.parent hr hparent
    obtain rfl := Option.some.inj (hp.symm.trans hq)
    have hrow : t.child? parent side = some row := by
      rw [child?_eq hp]
      rcases Side.eq_or_other side' side with rfl | rfl
      · exact hchild
      · exact absurd hchild ‹_›
    obtain ⟨t₄, t₅, hpaint₄, hpaint₅, houter⟩ := turns_of_turnGrandparent h hhangs hturn
    exact .outer huncle hrow hpaint₄ hpaint₅ houter

theorem Linked.mends (h : t.Linked) (hstep : t.repairStep row = some (t', row')) :
    ∃ parent grand side, t.Hangs row parent grand side ∧ t.Mends row parent grand side t' row' := by
  obtain ⟨r, hr, hstep⟩ := Option.bind_eq_some_iff.1 hstep
  obtain ⟨parent, hparent, hstep⟩ := Option.bind_eq_some_iff.1 hstep
  obtain ⟨⟨side, grand⟩, hhanging, hstep⟩ := Option.bind_eq_some_iff.1 hstep
  obtain ⟨g, hg, hbelow⟩ := Option.bind_eq_some_iff.1 hstep
  have hhangs := hangs_of_hanging h ((parent?_eq hr).trans hparent) hhanging
  dsimp only at hbelow
  rw [← child?_eq hg] at hbelow
  refine ⟨parent, grand, side, hhangs, ?_⟩
  cases huncle : t.child? grand side.other with
  | none =>
      rw [huncle] at hbelow
      exact mends_of_repairByRotation h hhangs (huncle ▸ rfl) hbelow
  | some uncle =>
      rw [huncle] at hbelow
      obtain ⟨color, hcolor, hbelow⟩ := Option.bind_eq_some_iff.1 hbelow
      cases color with
      | red =>
          obtain ⟨t₁, hrecolor, heq⟩ := Option.bind_eq_some_iff.1 hbelow
          cases heq
          exact .recolor huncle hcolor hrecolor
      | black => exact mends_of_repairByRotation h hhangs (huncle ▸ hcolor) hbelow

namespace RedBlackExcept

/-- What one step preserves. -/
theorem iteration (h : t.RedBlackExcept row) (hunder : t.underRed row = some true) :
    ∃ t' row', t.Iteration row t' row' := by
  obtain ⟨path, s, hrepairing, hsorted⟩ := h.exists_repairing
  cases path with
  | top =>
      rw [underRed_top hrepairing.draws hrepairing.link] at hunder
      cases hunder
  | under f path =>
      rw [underRed_under hrepairing.draws hrepairing.link] at hunder
      have hf : f.color = .red := of_decide_eq_true (Option.some.inj hunder)
      obtain ⟨g, path, rfl, t', row', path', s', hstep, h', hrows, hplace⟩ :=
        repairStep_spec hrepairing hf
      rw [← hrows] at hsorted
      obtain ⟨parent, grand, side, hhangs, hmends⟩ := h.linked.mends hstep
      refine ⟨t', row', hstep, ⟨parent, grand, side, hhangs, hmends, ?_⟩, h'.redBlackExcept hsorted,
        keeps_repairStep rfl _ hstep, fun keys hkeys => ?_⟩
      · rcases hplace with ⟨f', rfl, hf'⟩ | ⟨rfl, rfl⟩
        · obtain ⟨n, hfair⟩ := h'.fair (by simp [hf'])
          have hunder' := underRed_under h'.draws h'.link
          rw [hf'] at hunder'
          exact .inl ⟨Sound.redBlack ⟨_, n, h'.draws, hfair, hsorted⟩, hunder'⟩
        · have hup : t.Draws (Path.plug (.under g path') (f.fill s)) := hrepairing.draws
          have hparent : t.parent? row = some f.row :=
            parent?_of_link hrepairing.draws hrepairing.link
          have hgrand : t.parent? f.row = some g.row := parent?_of_link hup Shape.link_fork
          obtain rfl := Option.some.inj (hparent.symm.trans hhangs.above)
          exact .inr (Option.some.inj (hgrand.symm.trans hhangs.aboveThat))
      · rw [hrepairing.draws.inOrder_unique hkeys, Shape.keys, ← hrows]
        exact h'.draws.inOrder

/-- What the loop preserves. -/
theorem repairs (h : t.RedBlackExcept row) (hrepair : repair steps t row = some t') :
    t.Repairs row t' := by
  induction steps generalizing t row with
  | zero => cases hrepair
  | succ steps ih =>
      obtain ⟨under, hunder, hrepair⟩ := Option.bind_eq_some_iff.1 hrepair
      cases under with
      | false => exact .done hunder hrepair
      | true =>
          obtain ⟨⟨t₁, row₁⟩, hstep, hrepair⟩ := Option.bind_eq_some_iff.1 hrepair
          obtain ⟨t₂, row₂, hiteration⟩ := h.iteration hunder
          obtain ⟨rfl, rfl⟩ := Prod.mk.inj (Option.some.inj (hstep.symm.trans hiteration.step))
          exact .again hunder hiteration (ih hiteration.except hrepair)

end RedBlackExcept

end Iterations

/-- The insertion of a new key. A search from the root finds its place, and a repair goes up from
there. -/
structure Insertion (t : RowTree) (key : Int64) (t' : RowTree) : Prop where
  insert : t.insert? key = some (t', true)
  redBlack : t'.RedBlack
  keys : t'.keys = t.keys ++ [key]
  loops : ∀ root, t.root = some root → ∃ parent side t₁, t.Seeks key root (.vacant parent side) ∧
    t.hang key parent side = some t₁ ∧ t₁.RedBlackExcept t.size ∧ t₁.Repairs t.size t'

theorem RedBlack.insertion (h : t.RedBlack) (hkey : key ∉ t.keys) : ∃ t', t.Insertion key t' := by
  have hsound := h.sound
  obtain ⟨hmem, -⟩ | ⟨-, t', hinsert, h'⟩ := hsound.insert? key
  · exact absurd hmem hkey
  have hkeys : t'.keys = t.keys ++ [key] := by
    rcases t.insert?_yields key _ hinsert with heq | hkeys
    · cases heq
    · exact hkeys
  refine ⟨t', hinsert, h'.redBlack, hkeys, fun root hroot => ?_⟩
  obtain ⟨hmem, -⟩ | ⟨-, f, path, t₁, hvacant, hhang, hnewest, h₁, hsorted⟩ :=
    hsound.descend key hroot
  · exact absurd hmem hkey
  have hexcept := h₁.redBlackExcept hsorted
  refine ⟨f.row, f.side, t₁, seeks_of_descend hvacant, hhang, hexcept, ?_⟩
  simp only [insert?, hroot, hvacant, hhang, hnewest, Option.bind_eq_bind,
    Option.bind_some] at hinsert
  obtain ⟨t₂, hrepair, heq⟩ := Option.bind_eq_some_iff.1 hinsert
  obtain ⟨rfl, -⟩ := Prod.mk.inj (Option.some.inj heq)
  exact hexcept.repairs hrepair

/-- The insertion of a new key into a red-black tree comes to an end and meets no absent row. Every
iteration of its repair, from a tree that only one red row under a red parent keeps from being a
red-black tree, is the last one or moves this fault to the grandparent. Every rotation keeps parents
and children together and the keys in order. -/
theorem insertion_total :
    (∀ (t : RowTree) (key : Int64), t.RedBlack → key ∉ t.keys → ∃ t', t.Insertion key t') ∧
    (∀ (t : RowTree) (row : Nat), t.RedBlackExcept row → t.underRed row = some true →
      ∃ t' row', t.Iteration row t' row') ∧
    ∀ (t : RowTree) (side : Side) (row pivot : Nat), t.Linked →
      t.child? row side.other = some pivot → ∃ t', t.Turns side row pivot t' :=
  ⟨fun _ _ h hkey => h.insertion hkey, fun _ _ h hunder => h.iteration hunder,
    fun _ _ _ _ h hpivot => h.turns hpivot⟩

/-- The key 4 comes below the red row 6, whose sibling is red, so their parent, row 4, becomes red.
It hangs on the inner side of the red row 1 then, and row 1 and its parent turn. -/
theorem insertion_total_turnedTwice :
    let t := ofKeys [11, 2, 14, 1, 7, 15, 5, 8]
    t.RedBlack ∧ 4 ∉ t.keys ∧ (∃ t', t.Insertion 4 t') ∧
      (∃ t₁, t.hang 4 6 .left = some t₁ ∧ t₁.RedBlackExcept 8 ∧ t₁.underRed 8 = some true ∧
        ∃ t' row', t₁.Iteration 8 t' row') ∧
      t.Linked ∧ t.child? 1 Side.left.other = some 4 ∧ ∃ t', t.Turns .left 1 4 t' := by
  intro t
  have hsound : t.Sound := (grown_ofKeys _).sound
  have hkey : 4 ∉ t.keys := by decide +kernel
  have hsize : t.size = 8 := by decide +kernel
  have hroot : t.root = some 0 := by decide +kernel
  have hchild : t.child? 1 Side.left.other = some 4 := by decide +kernel
  have hvacant : t.descend 4 (t.size + 1) 0 = some (.vacant 6 .left) := by decide +kernel
  have hred : (t.hang 4 6 .left).bind (·.underRed 8) = some true := by decide +kernel
  obtain ⟨hmem, -⟩ | ⟨-, f, path, t₁, hdescend, hhang, -, h₁, hsorted⟩ := hsound.descend 4 hroot
  · exact absurd hmem hkey
  obtain ⟨hrow, hside⟩ := Place.vacant.inj (Option.some.inj (hdescend.symm.trans hvacant))
  rw [hrow, hside] at hhang
  have hexcept := h₁.redBlackExcept hsorted
  have hunder : t₁.underRed 8 = some true := by rwa [hhang, Option.bind_some] at hred
  rw [hsize] at hexcept
  exact ⟨hsound.redBlack, hkey, insertion_total.1 t 4 hsound.redBlack hkey,
    ⟨t₁, hhang, hexcept, hunder, insertion_total.2.1 t₁ 8 hexcept hunder⟩, hsound.redBlack.linked,
    hchild, insertion_total.2.2 t .left 1 4 hsound.redBlack.linked hchild⟩

end ChunkCache.RowTree
