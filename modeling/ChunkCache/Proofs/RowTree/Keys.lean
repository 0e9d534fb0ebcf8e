import ChunkCache.RowTree

namespace ChunkCache.RowTree

variable {t : RowTree} {keys : List Int64} {key : Int64} {i j : Nat} {f : Row → Row}

section Yields

variable {α β : Type} {P : α → Prop} {Q : β → Prop} {o : Option α} {next : α → Option β}

def Yields (P : α → Prop) (o : Option α) : Prop := ∀ a, o = some a → P a

theorem yields_some {a : α} (h : P a) : Yields P (some a) := by
  rintro b ⟨⟩
  exact h

theorem yields_none : Yields P none := by
  rintro b ⟨⟩

theorem Yields.bind (h : Yields P o) (hnext : ∀ a, P a → Yields Q (next a)) :
    Yields Q (o >>= next) := by
  cases o with
  | none => exact yields_none
  | some a => exact hnext a (h a rfl)

theorem yields_bind (hnext : ∀ a, Yields Q (next a)) : Yields Q (o >>= next) := by
  cases o with
  | none => exact yields_none
  | some a => exact hnext a

end Yields

theorem keys_modify (h : ∀ r, (f r).key = r.key) :
    ({ t with rows := t.rows.modify i f } : RowTree).keys = t.keys := by
  simp only [keys, Array.toList_modify]
  apply List.ext_getElem
  · simp
  · intro k hk hk'
    simp only [List.getElem_map, List.getElem_modify]
    split
    · exact h _
    · rfl

def Keeps (keys : List Int64) (o : Option RowTree) : Prop := Yields (fun t => t.keys = keys) o

theorem keeps_update (ht : t.keys = keys) (h : ∀ r, (f r).key = r.key) :
    Keeps keys (t.update i f) := by
  unfold update
  split
  · exact yields_some ((keys_modify h).trans ht)
  · exact yields_none

theorem keeps_paint {color : Color} (ht : t.keys = keys) : Keeps keys (t.paint i color) :=
  keeps_update ht fun _ => rfl

theorem keeps_setChild {side : Side} {child : Option Nat} (ht : t.keys = keys) :
    Keeps keys (t.setChild i side child) :=
  keeps_update ht fun r => by cases side <;> rfl

theorem keeps_setParent {parent : Option Nat} (ht : t.keys = keys) :
    Keeps keys (t.setParent i parent) :=
  keeps_update ht fun _ => rfl

theorem keeps_redirect {parent : Option Nat} (ht : t.keys = keys) :
    Keeps keys (t.redirect i j parent) := by
  unfold redirect
  split
  · exact yields_some ht
  · exact yields_bind fun r => keeps_setChild ht

theorem keeps_rehang (ht : t.keys = keys) : Keeps keys (t.rehang i j) :=
  yields_bind fun _ => (keeps_redirect ht).bind fun _ ht => keeps_setParent ht

theorem keeps_adopt {child : Option Nat} (ht : t.keys = keys) : Keeps keys (t.adopt i child) := by
  unfold adopt
  split
  · exact yields_some ht
  · exact keeps_setParent ht

theorem keeps_rotate {side : Side} (ht : t.keys = keys) : Keeps keys (t.rotate side i) := by
  unfold rotate
  refine yields_bind fun r => yields_bind fun pivot => (keeps_rehang ht).bind fun t ht => ?_
  refine yields_bind fun r => (keeps_setChild ht).bind fun t ht => ?_
  refine (keeps_adopt ht).bind fun t ht => ?_
  exact (keeps_setChild ht).bind fun t ht => keeps_setParent ht

theorem keeps_bringOut {side : Side} (ht : t.keys = keys) :
    Yields (fun r => r.1.keys = keys) (t.bringOut i j side) := by
  unfold bringOut
  refine yields_bind fun r => ?_
  split
  · intro r hr
    obtain ⟨t', ht', rfl⟩ := Option.map_eq_some_iff.1 hr
    exact keeps_rotate ht t' ht'
  · exact yields_some ht

theorem keeps_turnGrandparent {side : Side} (ht : t.keys = keys) :
    Keeps keys (t.turnGrandparent i side) := by
  refine yields_bind fun r => yields_bind fun parent => yields_bind fun r => ?_
  refine yields_bind fun grand => (keeps_paint ht).bind fun t ht => ?_
  exact (keeps_paint ht).bind fun t ht => keeps_rotate ht

theorem keeps_repairByRotation {side : Side} (ht : t.keys = keys) :
    Yields (fun r => r.1.keys = keys) (t.repairByRotation i j side) :=
  (keeps_bringOut ht).bind fun _ hr =>
    (keeps_turnGrandparent hr).bind fun _ ht => yields_some ht

theorem keeps_recolor {k : Nat} (ht : t.keys = keys) : Keeps keys (t.recolor i j k) :=
  (keeps_paint ht).bind fun _ ht => (keeps_paint ht).bind fun _ ht => keeps_paint ht

theorem keeps_repairStep (ht : t.keys = keys) :
    Yields (fun r => r.1.keys = keys) (t.repairStep i) := by
  refine yields_bind fun r => yields_bind fun parent => yields_bind fun hanging => ?_
  refine yields_bind fun r => ?_
  dsimp only
  unfold repairBelow
  split
  · exact keeps_repairByRotation ht
  · refine yields_bind fun color => ?_
    split
    · exact (keeps_recolor ht).bind fun t ht => yields_some ht
    · exact keeps_repairByRotation ht

theorem keeps_blackenRoot (ht : t.keys = keys) : Keeps keys t.blackenRoot := by
  unfold blackenRoot
  split
  · exact yields_some ht
  · exact keeps_paint ht

theorem keeps_repair {steps : Nat} (ht : t.keys = keys) : Keeps keys (repair steps t i) := by
  induction steps generalizing t i with
  | zero => exact yields_none
  | succ steps ih =>
      unfold repair
      refine yields_bind fun red => ?_
      split
      · exact (keeps_repairStep ht).bind fun r hr => ih hr
      · exact keeps_blackenRoot ht

theorem keys_push {row : Row} : (t.push row).keys = t.keys ++ [row.key] := by
  simp [push, keys]

theorem keeps_hang {side : Side} : Keeps (t.keys ++ [key]) (t.hang key i side) :=
  keeps_setChild keys_push

/-- An insertion that succeeds leaves a tree with the key as it is, or adds the key at the end. -/
theorem insert?_yields (t : RowTree) (key : Int64) :
    Yields (fun r => r = (t, false) ∨ r.1.keys = t.keys ++ [key]) (t.insert? key) := by
  unfold insert?
  split
  · exact yields_some (.inr keys_push)
  · refine yields_bind fun place => ?_
    cases place with
    | present => exact yields_some (.inl rfl)
    | vacant parent side =>
        refine keeps_hang.bind fun t ht => ?_
        exact (keeps_repair ht).bind fun t ht => yields_some (.inr ht)

/-- The tree that grows from some keys. -/
def ofKeys (keys : List Int64) : RowTree := keys.foldl (fun t key => (t.insert key).1) {}

def Grown (t : RowTree) : Prop := ofKeys t.keys = t

theorem grown_empty : Grown {} := rfl

/-- What an insertion answers is a grown tree again: the old tree, the tree with one more key, or
the empty tree that is left of a failure. -/
theorem Grown.insert (h : t.Grown) (key : Int64) : (t.insert key).1.Grown := by
  have hyields := t.insert?_yields key
  unfold RowTree.insert
  cases hinsert : t.insert? key with
  | none => exact grown_empty
  | some r =>
      rcases hyields r hinsert with rfl | hkeys
      · exact h
      · change ofKeys r.1.keys = r.1
        rw [hkeys, ofKeys, List.foldl_append]
        change ((ofKeys t.keys).insert key).1 = r.1
        rw [show ofKeys t.keys = t from h, RowTree.insert, hinsert]
        rfl

theorem Grown.insertAll (h : t.Grown) (keys : List Int64) :
    (keys.foldl (fun t key => (t.insert key).1) t).Grown := by
  induction keys generalizing t with
  | nil => exact h
  | cons key keys ih => exact ih (h.insert key)

theorem grown_ofKeys (keys : List Int64) : (ofKeys keys).Grown := grown_empty.insertAll keys

end ChunkCache.RowTree
