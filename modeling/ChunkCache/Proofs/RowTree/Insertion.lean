import ChunkCache.Proofs.RowTree.Balance
import ChunkCache.Proofs.RowTree.Keys

namespace ChunkCache.RowTree

variable {t : RowTree} {i steps : Nat} {key : Int64} {s : Shape} {f : Frame} {path : Path}

/-- The key lies between the keys to the left and to the right of the hole. -/
structure Straddles (key : Int64) (path : Path) : Prop where
  before : ∀ e ∈ path.before, e.2 < key
  after : ∀ e ∈ path.after, key < e.2

/-- The links draw a red-black search tree. -/
def Sound (t : RowTree) : Prop :=
  ∃ s n, t.Draws s ∧ Fair .black n s ∧ s.rows.Pairwise fun e e' => e.2 < e'.2

theorem Frame.exists_fill (i : Nat) (k : Int64) (color : Color) (l r : Shape) (side : Side) :
    ∃ (f : Frame) (near : Shape), Shape.node i k color l r = f.fill near ∧ f.row = i ∧ f.key = k ∧
      f.side = side := by
  cases side with
  | left => exact ⟨⟨i, k, color, .left, r⟩, l, rfl, rfl, rfl, rfl⟩
  | right => exact ⟨⟨i, k, color, .right, l⟩, r, rfl, rfl, rfl, rfl⟩

/-- A search that goes down on its side of a row keeps the key between its neighbours. -/
theorem Straddles.under {near : Shape} (h : Straddles key path)
    (hsorted : (path.plug (f.fill near)).rows.Pairwise fun e e' => e.2 < e'.2)
    (hne : key ≠ f.key) (hside : f.side = sideOf key f.key) : Straddles key (.under f path) := by
  rw [Path.rows_plug, List.append_assoc] at hsorted
  have hfill := (List.pairwise_append.1 (List.pairwise_append.1 hsorted).2.1).1
  unfold sideOf at hside
  split at hside
  · rename_i hlt
    rw [Frame.fill, hside, Shape.fork, Shape.rows, List.pairwise_append,
      List.pairwise_cons] at hfill
    constructor
    · simp only [Path.before, hside, List.append_nil]
      exact h.before
    · simp only [Path.after, hside, List.mem_append, List.mem_cons]
      rintro e ((rfl | he) | he)
      · exact hlt
      · exact Int64.lt_trans hlt (hfill.2.1.1 e he)
      · exact h.after e he
  · rename_i hnot
    have hlt : f.key < key := (Int64.lt_or_lt_of_ne hne).resolve_left hnot
    rw [Frame.fill, hside, Shape.fork, Shape.rows, List.pairwise_append,
      List.pairwise_cons] at hfill
    constructor
    · simp only [Path.before, hside, List.mem_append, List.mem_singleton]
      rintro e (he | he | rfl)
      · exact h.before e he
      · exact Int64.lt_trans (hfill.2.2 e he _ List.mem_cons_self) hlt
      · exact hlt
    · simp only [Path.after, hside, List.nil_append]
      exact h.after

section Descend

variable {r : Row}

theorem descend_present (hr : t.rows[i]? = some r) (hkey : key = r.key) :
    t.descend key (steps + 1) i = some .present := by
  simp only [descend, hr, Option.bind_eq_bind, Option.bind_some]
  exact if_pos hkey

theorem descend_vacant (hr : t.rows[i]? = some r) (hkey : key ≠ r.key)
    (hchild : r.child (sideOf key r.key) = none) :
    t.descend key (steps + 1) i = some (.vacant i (sideOf key r.key)) := by
  simp only [descend, hr, Option.bind_eq_bind, Option.bind_some]
  rw [if_neg hkey, hchild]

theorem descend_down {child : Nat} (hr : t.rows[i]? = some r) (hkey : key ≠ r.key)
    (hchild : r.child (sideOf key r.key) = some child) :
    t.descend key (steps + 1) i = t.descend key steps child := by
  simp only [descend, hr, Option.bind_eq_bind, Option.bind_some]
  rw [if_neg hkey, hchild]

end Descend

/-- The search finds the key, or the one hole in which it belongs. -/
theorem descend_spec (h : t.Draws (path.plug s)) (hi : s.link = some i)
    (hsorted : (path.plug s).rows.Pairwise fun e e' => e.2 < e'.2) (hkey : Straddles key path)
    (hsteps : s.rows.length ≤ steps) :
    (t.descend key steps i = some .present ∧ key ∈ s.keys) ∨
      ∃ f path', t.descend key steps i = some (.vacant f.row f.side) ∧
        (Path.under f path').plug .leaf = path.plug s ∧ Straddles key (.under f path') := by
  induction steps generalizing s path i with
  | zero =>
      cases s with
      | leaf => cases hi
      | node j k color l r => simp [Shape.rows] at hsteps
  | succ steps ih =>
      cases s with
      | leaf => cases hi
      | node j k color l r =>
      cases hi
      obtain ⟨f, near, hs, rfl, rfl, hside⟩ := Frame.exists_fill i k color l r (sideOf key k)
      rw [hs] at h hsorted hsteps ⊢
      have hnear : t.Draws (Path.plug (.under f path) near) := h
      obtain ⟨hrow, -⟩ := (lies_plug.1 hnear.lies).2
      have hrowKey : (f.above near.link path.parent).key = f.key := Row.key_linked
      by_cases heq : key = f.key
      · refine .inl ⟨descend_present hrow (heq.trans hrowKey.symm), ?_⟩
        rw [← hs, heq]
        simp [Shape.keys, Shape.rows]
      have hne : key ≠ (f.above near.link path.parent).key := hrowKey ▸ heq
      have hchild : (f.above near.link path.parent).child
          (sideOf key (f.above near.link path.parent).key) = near.link := by
        rw [hrowKey, ← hside]
        exact Row.child_linked
      have hdown := hkey.under hsorted heq hside
      cases near with
      | leaf =>
          refine .inr ⟨f, path, ?_, rfl, hdown⟩
          rw [descend_vacant hrow hne hchild, hrowKey, hside]
      | node j k' color' l' r' =>
          have hfill := f.rows_fill_perm (.node j k' color' l' r')
          have hshorter : (Shape.node j k' color' l' r').rows.length ≤ steps := by
            have hlength := hfill.length_eq
            rw [List.length_cons, List.length_append] at hlength
            omega
          rw [descend_down hrow hne hchild]
          rcases ih hnear rfl hsorted hdown hshorter with ⟨hpresent, hmem⟩ | hvacant
          · refine .inl ⟨hpresent, (hfill.map Prod.snd).mem_iff.2 ?_⟩
            rw [List.map_cons, List.map_append]
            exact List.mem_cons_of_mem _ (List.mem_append_left _ hmem)
          · exact .inr hvacant

theorem hang_spec (key : Int64) (h : t.Draws (Path.plug (.under f path) .leaf)) :
    ∃ t', t.hang key f.row f.side = some t' ∧ t'.newest = t.size ∧
      t'.Draws (Path.plug (.under f path) (.node t.size key .red .leaf .leaf)) := by
  have hindices : (Path.under f path).indices.Perm (List.range t.size) :=
    Path.indices_plug.symm.trans h.indices
  have hlt : ∀ j ∈ (Path.under f path).indices, j < t.size := fun j hj =>
    List.mem_range.1 (hindices.mem_iff.1 hj)
  obtain ⟨t₁, ht₁⟩ : ∃ t₁, t₁ = t.push ⟨key, .red, none, none, some f.row⟩ := ⟨_, rfl⟩
  have hold : ∀ j, j < t.size → t₁.rows[j]? = t.rows[j]? := by
    intro j hj
    rw [ht₁, push, Array.getElem?_push]
    exact if_neg (Nat.ne_of_lt hj)
  have hnew : t₁.rows[t.size]? = some ⟨key, .red, none, none, some f.row⟩ := by
    rw [ht₁, push, size, Array.getElem?_push, if_pos rfl]
  have hsize : t₁.size = t.size + 1 := by
    rw [ht₁, push, size, Array.size_push, size]
  have hnewest : t₁.newest = t.size := by
    rw [newest, hsize, Nat.add_sub_cancel]
  obtain ⟨hrow, hother, hpath⟩ : Surrounds t₁.rows none (.under f path) :=
    (lies_plug.1 h.lies).2.congr fun j hj => hold j (hlt j hj)
  obtain ⟨t₂, hset, hwrites⟩ :=
    update_writes (f := fun r => r.withChild f.side (some t.size)) hrow
  have hnodup := hindices.nodup_iff.2 List.nodup_range
  simp only [Path.indices, List.nodup_cons, List.mem_append, not_or] at hnodup
  have hne : t.size ≠ f.row := fun heq =>
    Nat.lt_irrefl t.size (hlt t.size (heq ▸ List.mem_cons_self))
  refine ⟨t₂, ?_, ?_, ?_, ?_, ?_⟩
  · simp only [hang, setChild]
    rw [← ht₁, hnewest]
    exact hset
  · rw [newest, hwrites.size, ← newest, hnewest]
  · rw [hwrites.root, ht₁]
    exact h.root.trans (by rw [Path.link_plug, Path.link_plug]; rfl)
  · refine lies_plug.2 ⟨⟨(hwrites.rest _ hne).trans hnew, trivial, trivial⟩, ?_, ?_, ?_⟩
    · rw [hwrites.row, Frame.above, Row.withChild_linked]
      rfl
    · exact hwrites.lies hother hnodup.1.1
    · exact hwrites.surrounds hpath hnodup.1.2
  · rw [hwrites.size, hsize, List.range_succ]
    exact Path.indices_plug.trans
      ((hindices.cons t.size).trans (List.perm_append_singleton _ _).symm)

theorem Straddles.sorted (hkey : Straddles key path)
    (h : (path.plug .leaf).rows.Pairwise fun e e' => e.2 < e'.2) :
    (path.plug (.node i key .red .leaf .leaf)).rows.Pairwise fun e e' => e.2 < e'.2 := by
  rw [Path.rows_plug] at h ⊢
  simp only [Shape.rows, List.append_nil, List.nil_append, List.append_assoc, List.cons_append,
    List.pairwise_append, List.pairwise_cons] at h ⊢
  refine ⟨h.1, ⟨hkey.after, h.2.1⟩, fun e he e' he' => ?_⟩
  rcases List.mem_cons.1 he' with rfl | he'
  · exact hkey.before e he
  · exact h.2.2 e he e' he'

theorem Straddles.not_mem (hkey : Straddles key path) : key ∉ (path.plug .leaf).keys := by
  rw [Shape.keys, Path.rows_plug]
  intro hmem
  obtain ⟨e, he, rfl⟩ := List.mem_map.1 hmem
  simp only [Shape.rows, List.append_nil, List.mem_append] at he
  rcases he with he | he
  · exact Int64.lt_irrefl (hkey.before e he)
  · exact Int64.lt_irrefl (hkey.after e he)

theorem sound_empty : Sound {} :=
  ⟨.leaf, 0, ⟨rfl, trivial, .refl _⟩, .leaf, .nil⟩

theorem sound_push (h : t.Draws .leaf) (key : Int64) :
    Sound { t.push { key, color := .black } with
      root := some (t.push { key, color := .black }).newest } := by
  have hsize : t.rows.size = 0 := h.length_rows.symm
  have hrows : t.rows = #[] := Array.eq_empty_of_size_eq_zero hsize
  refine ⟨.node 0 key .black .leaf .leaf, 1, ⟨?_, ⟨?_, trivial, trivial⟩, ?_⟩, .black .leaf .leaf,
    List.pairwise_singleton _ _⟩
  · simp [push, newest, size, hrows, Shape.link]
  · simp [push, hrows, Shape.link]
  · simp [push, size, hrows, Shape.indices, Shape.rows]

namespace Sound

/-- The search in a sound tree finds the key, or a place for it. A red row that is hung there keeps
the keys in order, and nothing is wrong except that it may hang below a red row. -/
theorem descend (h : t.Sound) (key : Int64) {root : Nat} (hroot : t.root = some root) :
    (key ∈ t.keys ∧ t.descend key (t.size + 1) root = some .present) ∨
      (key ∉ t.keys ∧ ∃ f path t', t.descend key (t.size + 1) root = some (.vacant f.row f.side) ∧
        t.hang key f.row f.side = some t' ∧ t'.newest = t.size ∧
        Repairing t' t.size (.under f path) (.node t.size key .red .leaf .leaf) ∧
        (Path.plug (.under f path) (.node t.size key .red .leaf .leaf)).rows.Pairwise
          fun e e' => e.2 < e'.2) := by
  obtain ⟨s, n, hdraws, hfair, hsorted⟩ := h
  rw [← hdraws.keys_perm.mem_iff]
  have hlink : s.link = some root := hdraws.root.symm.trans hroot
  have hwhole : t.Draws (Path.plug .top s) := hdraws
  have htop : Straddles key .top := ⟨by simp [Path.before], by simp [Path.after]⟩
  rcases descend_spec hwhole hlink hsorted htop (Nat.le_of_lt (Nat.lt_succ_of_le
    (Nat.le_of_eq hdraws.length_rows))) with ⟨hpresent, hmem⟩ | ⟨f, path, hvacant, hplug, hkey⟩
  · exact .inl ⟨hmem, hpresent⟩
  · change (Path.under f path).plug .leaf = s at hplug
    rw [← hplug] at hdraws hfair hsorted ⊢
    obtain ⟨t', hhang, hnewest, h'⟩ := hang_spec key hdraws
    obtain ⟨color, m, hleaf, hgap⟩ := Gap.of_plug hfair
    cases hleaf
    exact .inr ⟨hkey.not_mem, f, path, t', hvacant, hhang, hnewest,
      ⟨h', rfl, 0, _, .red .leaf .leaf, hgap⟩, hkey.sorted hsorted⟩

/-- An insertion into a sound tree finds the key or adds it, and the tree stays sound. -/
theorem insert? (h : t.Sound) (key : Int64) :
    (key ∈ t.keys ∧ t.insert? key = some (t, false)) ∨
      (key ∉ t.keys ∧ ∃ t', t.insert? key = some (t', true) ∧ t'.Sound) := by
  cases hroot : t.root with
  | none =>
      obtain ⟨s, n, hdraws, hfair, hsorted⟩ := h
      rw [← hdraws.keys_perm.mem_iff]
      have hlink : s.link = none := hdraws.root.symm.trans hroot
      cases s with
      | node => cases hlink
      | leaf =>
          refine .inr ⟨List.not_mem_nil, _, ?_, sound_push hdraws key⟩
          simp only [RowTree.insert?, hroot]
  | some root =>
      rcases h.descend key hroot with
        ⟨hmem, hpresent⟩ | ⟨hkey, f, path, t₁, hvacant, hhang, hnewest, h₁, hsorted⟩
      · refine .inl ⟨hmem, ?_⟩
        simp only [RowTree.insert?, hroot, hpresent, Option.bind_eq_bind, Option.bind_some]
      · obtain ⟨t₂, s₂, hrepair, h₂, ⟨m, hfair₂⟩, hrows⟩ :=
          repair_spec h₁ (Nat.lt_succ_of_le h₁.draws.length_path)
        refine .inr ⟨hkey, t₂, ?_, s₂, m, h₂, hfair₂, ?_⟩
        · simp only [RowTree.insert?, hroot, hvacant, hhang, hnewest, Option.bind_eq_bind,
            Option.bind_some]
          rw [hrepair]
          rfl
        · rw [hrows]
          exact hsorted

theorem insert_of_mem (h : t.Sound) (hkey : key ∈ t.keys) : t.insert key = (t, false) := by
  rcases h.insert? key with ⟨-, hinsert⟩ | ⟨hkey', -⟩
  · rw [RowTree.insert, hinsert, Option.getD_some]
  · exact absurd hkey hkey'

theorem insert_of_not_mem (h : t.Sound) (hkey : key ∉ t.keys) :
    ∃ t', t.insert key = (t', true) ∧ t'.Sound ∧ t'.keys = t.keys ++ [key] := by
  rcases h.insert? key with ⟨hkey', -⟩ | ⟨-, t', hinsert, h'⟩
  · exact absurd hkey' hkey
  · refine ⟨t', by rw [RowTree.insert, hinsert, Option.getD_some], h', ?_⟩
    rcases t.insert?_yields key _ hinsert with heq | hkeys
    · cases heq
    · exact hkeys

theorem insert (h : t.Sound) (key : Int64) : (t.insert key).1.Sound := by
  by_cases hkey : key ∈ t.keys
  · rw [h.insert_of_mem hkey]
    exact h
  · obtain ⟨t', hinsert, h', -⟩ := h.insert_of_not_mem hkey
    rw [hinsert]
    exact h'

theorem nodup (h : t.Sound) : t.keys.Nodup := by
  obtain ⟨s, n, hdraws, -, hsorted⟩ := h
  refine hdraws.keys_perm.nodup_iff.1 (List.pairwise_map.2 (hsorted.imp fun hlt heq => ?_))
  rw [heq] at hlt
  exact Int64.lt_irrefl hlt

theorem insertAll {keys : List Int64} (h : t.Sound) (hkeys : (t.keys ++ keys).Nodup) :
    (keys.foldl (fun t key => (t.insert key).1) t).Sound ∧
      (keys.foldl (fun t key => (t.insert key).1) t).keys = t.keys ++ keys := by
  induction keys generalizing t with
  | nil => exact ⟨h, (List.append_nil _).symm⟩
  | cons key keys ih =>
      have hkey : key ∉ t.keys := fun hmem =>
        (List.nodup_append.1 hkeys).2.2 key hmem key List.mem_cons_self rfl
      obtain ⟨t', hinsert, h', hkeys'⟩ := h.insert_of_not_mem hkey
      have hall : (t'.keys ++ keys).Nodup := by
        rw [hkeys', List.append_assoc]
        exact hkeys
      obtain ⟨hsound, heq⟩ := ih h' hall
      rw [List.foldl_cons, hinsert]
      refine ⟨hsound, heq.trans ?_⟩
      rw [hkeys', List.append_assoc]
      rfl

end Sound

theorem keys_ofKeys {keys : List Int64} (h : keys.Nodup) : (ofKeys keys).keys = keys :=
  (sound_empty.insertAll h).2

theorem Grown.sound (h : t.Grown) : t.Sound := by
  have hsound : ∀ (keys : List Int64) (t : RowTree), t.Sound →
      (keys.foldl (fun t key => (t.insert key).1) t).Sound := by
    intro keys
    induction keys with
    | nil => exact fun t h => h
    | cons key keys ih => exact fun t h => ih (t.insert key).1 (h.insert key)
  rw [← show ofKeys t.keys = t from h]
  exact hsound t.keys {} sound_empty

end ChunkCache.RowTree
