import ChunkCache.Proofs.RowTree.Shape

namespace ChunkCache.RowTree

variable {t t' : RowTree} {i j k old : Nat} {r : Row} {f : Row → Row} {key key' : Int64}
variable {color color' : Color} {side : Side} {s a b c : Shape} {path : Path}
variable {parent child : Option Nat}

/-- `t'` is `t` with another row `i`. -/
structure Writes (t : RowTree) (i : Nat) (r : Row) (t' : RowTree) : Prop where
  root : t'.root = t.root
  size : t'.size = t.size
  row : t'.rows[i]? = some r
  rest : ∀ j, j ≠ i → t'.rows[j]? = t.rows[j]?

theorem update_writes (h : t.rows[i]? = some r) :
    ∃ t', t.update i f = some t' ∧ t.Writes i (f r) t' := by
  have hi : i < t.rows.size := (Array.getElem?_eq_some_iff.1 h).1
  refine ⟨_, if_pos hi, rfl, ?_, ?_, fun j hj => ?_⟩
  · exact Array.size_modify
  · simp [Array.getElem?_modify, h]
  · simp [Array.getElem?_modify, Ne.symm hj]

namespace Writes

theorem lies (h : t.Writes i r t') (hs : Lies t.rows parent s) (hi : i ∉ s.indices) :
    Lies t'.rows parent s :=
  hs.congr fun j hj => h.rest j fun hji => hi (hji ▸ hj)

theorem surrounds (h : t.Writes i r t') (hpath : Surrounds t.rows child path)
    (hi : i ∉ path.indices) : Surrounds t'.rows child path :=
  hpath.congr fun j hj => h.rest j fun hji => hi (hji ▸ hj)

end Writes

theorem Shape.mem_indices_of_link (h : s.link = some i) : i ∈ s.indices := by
  cases s with
  | leaf => cases h
  | node j key color l r =>
      cases h
      simp [Shape.indices, Shape.rows]

/-- The side on which a row hangs is seen from its parent. -/
theorem Frame.side_eq {f : Frame} (parent : Option Nat) (hi : i ∉ f.other.indices) :
    (if (f.above (some i) parent).left = some i then Side.left else .right) = f.side := by
  unfold Frame.above
  cases f.side with
  | left => exact if_pos rfl
  | right => exact if_neg fun hlink => hi (Shape.mem_indices_of_link hlink)

/-- The link that leads to `old` is found, and it is the only one that changes. -/
theorem redirect_spec (new : Nat) (hpath : Surrounds t.rows (some old) path)
    (hroot : t.root = path.rootLink (some old)) (hnodup : path.indices.Nodup)
    (hold : old ∉ path.indices) :
    ∃ t', t.redirect old new path.parent = some t' ∧ t'.root = path.rootLink (some new) ∧
      t'.size = t.size ∧ Surrounds t'.rows (some new) path ∧
      ∀ j, j ∉ path.indices → t'.rows[j]? = t.rows[j]? := by
  cases path with
  | top => exact ⟨_, rfl, rfl, rfl, trivial, fun _ _ => rfl⟩
  | under f path =>
      obtain ⟨hrow, hother, hrest⟩ := hpath
      simp only [Path.indices, List.nodup_cons, List.mem_cons, List.mem_append, not_or]
        at hnodup hold ⊢
      have hside := Frame.side_eq path.parent hold.2.1
      obtain ⟨t', hupdate, hwrites⟩ :=
        update_writes (f := fun r => r.withChild f.side (some new)) hrow
      refine ⟨t', ?_, hwrites.root.trans hroot, hwrites.size, ⟨?_, ?_, ?_⟩, fun j hj => ?_⟩
      · change t.redirect old new (some f.row) = some t'
        simp only [redirect, hrow, Option.bind_eq_bind, Option.bind_some, hside]
        exact hupdate
      · rw [hwrites.row, Frame.above, Row.withChild_linked]
        rfl
      · exact hwrites.lies hother hnodup.1.1
      · exact hwrites.surrounds hrest hnodup.1.2
      · exact hwrites.rest j hj.1

theorem rehang_spec (new : Nat) (hpath : Surrounds t.rows (some old) path)
    (hroot : t.root = path.rootLink (some old)) (hnodup : path.indices.Nodup)
    (hold : old ∉ path.indices) (hnew : new ∉ path.indices) {q : Row}
    (hr : t.rows[old]? = some r) (hparent : r.parent = path.parent) (hq : t.rows[new]? = some q) :
    ∃ t', t.rehang old new = some t' ∧ t'.root = path.rootLink (some new) ∧ t'.size = t.size ∧
      Surrounds t'.rows (some new) path ∧
      t'.rows[new]? = some { q with parent := path.parent } ∧
      ∀ j, j ∉ path.indices → j ≠ new → t'.rows[j]? = t.rows[j]? := by
  obtain ⟨t₁, hredirect, hroot₁, hsize₁, hpath₁, hrest₁⟩ :=
    redirect_spec new hpath hroot hnodup hold
  have hq₁ : t₁.rows[new]? = some q := (hrest₁ new hnew).trans hq
  obtain ⟨t₂, hupdate, hwrites⟩ :=
    update_writes (f := fun r => { r with parent := path.parent }) hq₁
  refine ⟨t₂, ?_, hwrites.root.trans hroot₁, hwrites.size.trans hsize₁,
    hwrites.surrounds hpath₁ hnew, hwrites.row, fun j hj hne => ?_⟩
  · simp only [rehang, hr, Option.bind_eq_bind, Option.bind_some, hparent, hredirect]
    exact hupdate
  · exact (hwrites.rest j hne).trans (hrest₁ j hj)

theorem adopt_spec (hs : Lies t.rows parent s) (hnodup : s.indices.Nodup) :
    ∃ t', t.adopt i s.link = some t' ∧ t'.root = t.root ∧ t'.size = t.size ∧
      Lies t'.rows (some i) s ∧ ∀ j, j ∉ s.indices → t'.rows[j]? = t.rows[j]? := by
  cases s with
  | leaf => exact ⟨t, rfl, rfl, rfl, trivial, fun _ _ => rfl⟩
  | node k key color l r =>
      obtain ⟨hrow, hl, hr⟩ := hs
      simp only [Shape.indices, Shape.rows, List.map_append, List.map_cons, List.nodup_append,
        List.nodup_cons, List.mem_append, List.mem_cons, not_or] at hnodup ⊢
      obtain ⟨t', hupdate, hwrites⟩ :=
        update_writes (f := fun r => { r with parent := some i }) hrow
      refine ⟨t', hupdate, hwrites.root, hwrites.size, ⟨hwrites.row, ?_, ?_⟩, fun j hj => ?_⟩
      · exact hwrites.lies hl fun hk => hnodup.2.2 k hk k (.inl rfl) rfl
      · exact hwrites.lies hr hnodup.2.1.1
      · exact hwrites.rest j hj.2.1

/-- Row `i` takes `b` from row `j` and goes below it. -/
theorem relink_spec {p q : Row} (side : Side) (hi : t.rows[i]? = some p) (hj : t.rows[j]? = some q)
    (hb : Lies t.rows (some j) b) (hnodup : b.indices.Nodup) (hij : j ≠ i) (hib : i ∉ b.indices)
    (hjb : j ∉ b.indices) :
    ∃ t₁ t₂ t₃ t', t.setChild i side.other b.link = some t₁ ∧ t₁.adopt i b.link = some t₂ ∧
      t₂.setChild j side (some i) = some t₃ ∧ t₃.setParent i (some j) = some t' ∧
      t'.root = t.root ∧ t'.size = t.size ∧
      t'.rows[i]? = some { p.withChild side.other b.link with parent := some j } ∧
      t'.rows[j]? = some (q.withChild side (some i)) ∧ Lies t'.rows (some i) b ∧
      ∀ x, x ≠ i → x ≠ j → x ∉ b.indices → t'.rows[x]? = t.rows[x]? := by
  obtain ⟨t₁, hset₁, hwrites₁⟩ :=
    update_writes (f := fun r => r.withChild side.other b.link) hi
  obtain ⟨t₂, hadopt, hroot₂, hsize₂, hb₂, hrest₂⟩ :=
    adopt_spec (i := i) (hwrites₁.lies hb hib) hnodup
  have hj₂ := (hrest₂ j hjb).trans ((hwrites₁.rest j hij).trans hj)
  obtain ⟨t₃, hset₃, hwrites₃⟩ := update_writes (f := fun r => r.withChild side (some i)) hj₂
  have hi₃ := (hwrites₃.rest i (Ne.symm hij)).trans ((hrest₂ i hib).trans hwrites₁.row)
  obtain ⟨t₄, hset₄, hwrites₄⟩ := update_writes (f := fun r => { r with parent := some j }) hi₃
  refine ⟨t₁, t₂, t₃, t₄, hset₁, hadopt, hset₃, hset₄, ?_, ?_, hwrites₄.row, ?_, ?_, ?_⟩
  · rw [hwrites₄.root, hwrites₃.root, hroot₂, hwrites₁.root]
  · rw [hwrites₄.size, hwrites₃.size, hsize₂, hwrites₁.size]
  · exact (hwrites₄.rest j hij).trans hwrites₃.row
  · exact hwrites₄.lies (hwrites₃.lies hb₂ hjb) hib
  · intro x hxi hxj hxb
    exact (hwrites₄.rest x hxi).trans ((hwrites₃.rest x hxj).trans
      ((hrest₂ x hxb).trans (hwrites₁.rest x hxi)))

/-- A rotation turns the shape in the hole: the pivot `j` comes up and `i` goes down to `side`. -/
theorem rotate_spec
    (h : t.Draws (path.plug (.fork i key color side a (.fork j key' color' side b c)))) :
    ∃ t', t.rotate side i = some t' ∧ t'.size = t.size ∧
      t'.Draws (path.plug (.fork j key' color' side (.fork i key color side a b) c)) := by
  obtain ⟨hfocus, hpath⟩ := lies_plug.1 h.lies
  obtain ⟨hi, ha, hfocus⟩ := lies_fork.1 hfocus
  obtain ⟨hj, hb, hc⟩ := lies_fork.1 hfocus
  rw [Shape.link_fork] at hpath hi
  have hroot : t.root = path.rootLink (some i) := by
    rw [h.root, Path.link_plug, Shape.link_fork]
  have hindices : (path.plug (.fork i key color side a (.fork j key' color' side b c))).indices.Perm
      (i :: (a.indices ++ j :: (b.indices ++ c.indices)) ++ path.indices) :=
    Path.indices_plug.trans ((Shape.indices_fork.trans
      ((Shape.indices_fork.append_left _).cons i)).append_right _)
  have hnodup := hindices.nodup_iff.1 h.nodup
  simp only [List.cons_append, List.nodup_cons, List.nodup_append, List.mem_append, List.mem_cons,
    List.append_assoc, not_or] at hnodup
  obtain ⟨⟨hia, hij, hib, hic, hip⟩, -, ⟨⟨hjb, hjc, hjp⟩, hbnodup, ⟨-, hpnodup, hcp⟩, hbcp⟩,
    haout⟩ := hnodup
  have hpivot : (Row.linked key color side a.link (some j) path.parent).child side.other = some j :=
    Row.child_other_linked
  obtain ⟨t₁, hrehang, hroot₁, hsize₁, hpath₁, hj₁, hrest₁⟩ :=
    rehang_spec j hpath hroot hpnodup hip hjp hi Row.parent_linked hj
  rw [Row.linked_withParent] at hj₁
  have hinner : (Row.linked key' color' side b.link c.link path.parent).child side = b.link :=
    Row.child_linked
  have hi₁ := (hrest₁ i hip hij).trans hi
  have hb₁ : Lies t₁.rows (some j) b := hb.congr fun x hx =>
    hrest₁ x (fun hxp => hbcp x hx x (.inr hxp) rfl) fun hxj => hjb (hxj ▸ hx)
  obtain ⟨t₂, t₃, t₄, t₅, hset₂, hadopt, hset₄, hset₅, hroot₅, hsize₅, hi₅, hj₅, hb₅, hrest₅⟩ :=
    relink_spec side hi₁ hj₁ hb₁ hbnodup (Ne.symm hij) hib hjb
  rw [Row.withChild_linked] at hj₅
  rw [Row.withChild_other_linked, Row.linked_withParent] at hi₅
  rw [hsize₁] at hsize₅
  refine ⟨t₅, ?_, hsize₅, ?_, ?_, ?_⟩
  · simp only [rotate, hi, Option.bind_eq_bind, Option.bind_some, hpivot, hrehang, hj₁, hinner]
    simp only [hset₂, Option.bind_some, hadopt, hset₄]
    exact hset₅
  · rw [Path.link_plug, Shape.link_fork, hroot₅, hroot₁]
  · simp only [lies_plug, lies_fork, Shape.link_fork]
    refine ⟨⟨hj₅, ⟨hi₅, ?_, ?_⟩, ?_⟩, ?_⟩
    · refine ha.congr fun x hx => ?_
      have hxj : x ≠ j := haout x hx j (.inl rfl)
      have hxb : x ∉ b.indices := fun hxb => haout x hx x (.inr (.inl hxb)) rfl
      have hxp : x ∉ path.indices := fun hxp => haout x hx x (.inr (.inr (.inr hxp))) rfl
      have hxi : x ≠ i := fun hxi => hia (hxi ▸ hx)
      exact (hrest₅ x hxi hxj hxb).trans (hrest₁ x hxp hxj)
    · exact hb₅
    · refine hc.congr fun x hx => ?_
      have hxj : x ≠ j := fun hxj => hjc (hxj ▸ hx)
      have hxb : x ∉ b.indices := fun hxb => hbcp x hxb x (.inl hx) rfl
      have hxp : x ∉ path.indices := fun hxp => hcp x hx x hxp rfl
      have hxi : x ≠ i := fun hxi => hic (hxi ▸ hx)
      exact (hrest₅ x hxi hxj hxb).trans (hrest₁ x hxp hxj)
    · refine hpath₁.congr fun x hx => hrest₅ x ?_ ?_ ?_
      · exact fun hxi => hip (hxi ▸ hx)
      · exact fun hxj => hjp (hxj ▸ hx)
      · exact fun hxb => hbcp x hxb x (.inr hx) rfl
  · have hrows := h.indices
    rw [Shape.indices, Path.rows_plug, Shape.rows_turn, ← Path.rows_plug] at hrows
    rw [hsize₅]
    exact hrows

end ChunkCache.RowTree
