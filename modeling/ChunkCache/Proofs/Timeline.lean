import Mathlib.Data.Finset.Card
import Mathlib.Data.Finset.Sort
import ChunkCache.Proofs.Formats
import ChunkCache.Proofs.RowTree.Floor
import ChunkCache.Proofs.RowTree.RedBlack
import ChunkCache.Proofs.RowTree.Traversal
import ChunkCache.Timeline

namespace ChunkCache.Timeline

variable {t t' : Timeline} {S : Finset Int64} {key : Int64} {buffer : Bytes} {keys : List Int64}

/-- The keys that a buffer spells, if it spells any. -/
noncomputable def stored? (buffer : Bytes) : Option (List Int64) := buffer.spelled? Spells

/-- What callers do to a timeline. -/
inductive Action where
  | insert (key : Int64)
  | insertSilently (key : Int64)
  | truncate (bound : Int64)
  | reserve (rows : Nat)
  | save
  | load (buffer : Bytes)

namespace Action

/-- The timeline after an action. One that is refused leaves it. -/
def on : Action → Timeline → Timeline
  | insert key, t => (t.insert key).1
  | insertSilently key, t => (t.insertSilently key).1
  | truncate bound, t => t.truncate bound
  | reserve rows, t =>
    match t.reserve rows with
    | .ok t => t
    | .error _ => t
  | save, t => t.save.2
  | load buffer, t =>
    match t.load buffer with
    | .ok t => t
    | .error _ => t

/-- What an action makes of a set of keys. -/
noncomputable def onKeys : Action → Finset Int64 → Finset Int64
  | insert key, S | insertSilently key, S => Insert.insert key S
  | truncate bound, S => S.filter (· < bound)
  | load buffer, S =>
    match stored? buffer with
    | some keys => S ∪ keys.toFinset
    | none => S
  | reserve _, S | save, S => S

end Action

/-- The timeline after some actions, the first one first. -/
def run (t : Timeline) (actions : List Action) : Timeline :=
  actions.foldl (fun t action => action.on t) t

/-- The keys that some actions leave of a set of keys. -/
noncomputable def keysAfter (S : Finset Int64) (actions : List Action) : Finset Int64 :=
  actions.foldl (fun S action => action.onKeys S) S

/-- The keys of the timeline are those of a set; its tree is sound and has room. -/
structure Holds (t : Timeline) (S : Finset Int64) : Prop where
  sound : t.tree.Sound
  mem : ∀ key, key ∈ t.tree.keys ↔ key ∈ S
  room : t.size ≤ t.capacity

theorem stored?_eq_some_iff : stored? buffer = some keys ↔ Spells buffer keys :=
  Bytes.spelled?_eq_some_iff fun _ => read_eq_ok_iff

namespace Action

theorem onKeys_load (buffer : Bytes) (S : Finset Int64) :
    (load buffer).onKeys S = S ∪ ((stored? buffer).getD []).toFinset := by
  rw [onKeys]
  cases stored? buffer with
  | none => exact (Finset.union_empty S).symm
  | some keys => rfl

/-- A load merges what its buffer spells, or it leaves the timeline. -/
theorem on_load (buffer : Bytes) (t : Timeline) :
    (load buffer).on t = t.merge ((stored? buffer).getD []) ∨
      (stored? buffer).getD [] = [] ∧ (load buffer).on t = t := by
  rw [on]
  cases hstored : stored? buffer with
  | none =>
      obtain ⟨e, hload⟩ := t.load_eq_error (Bytes.spelled?_eq_none_iff.1 hstored)
      rw [hload]
      exact .inr ⟨rfl, rfl⟩
  | some keys =>
      rcases load_spelled (stored?_eq_some_iff.1 hstored) t with hload | ⟨hnothing, hload⟩
      · rw [hload]
        exact .inl rfl
      · rw [hload]
        exact .inr ⟨hnothing, rfl⟩

theorem on_reserve (rows : Nat) (t : Timeline) :
    ((reserve rows).on t).tree = t.tree ∧ t.capacity ≤ ((reserve rows).on t).capacity := by
  rw [on]
  split
  · rename_i hreserve
    rw [eq_makeRoom_of_reserve hreserve]
    exact ⟨rfl, Nat.le_max_right ..⟩
  · exact ⟨rfl, Nat.le_refl _⟩

end Action

theorem placeAll_eq (t : Timeline) (keys : List Int64) :
    (t.placeAll keys).1 = keys.foldl (fun t key => (t.place key).1) t := by
  have hfold : ∀ (t : Timeline) (found : Bool), (keys.foldl (fun r key =>
      ((r.1.place key).1, r.2 || (r.1.place key).2)) (t, found)).1 =
        keys.foldl (fun t key => (t.place key).1) t := by
    induction keys with
    | nil => exact fun _ _ => rfl
    | cons key keys ih => exact fun t found => ih (t.place key).1 (found || (t.place key).2)
  exact hfold t false

theorem snd_ite (new : Bool) (t t' : Timeline) :
    (if new then (t, true) else (t', false)).2 = new := by
  cases new <;> rfl

theorem insertSilently_snd (t : Timeline) (key : Int64) :
    (t.insertSilently key).2 = (t.tree.insert key).2 :=
  snd_ite (t.place key).2 (t.place key).1.stamped (t.place key).1

theorem insert_snd (t : Timeline) (key : Int64) : (t.insert key).2 = (t.tree.insert key).2 :=
  (snd_ite _ (t.insertSilently key).1.touch (t.insertSilently key).1).trans
    (insertSilently_snd t key)

namespace Holds

theorem congr (h : t.Holds S) (htree : t'.tree = t.tree) (hcapacity : t.capacity ≤ t'.capacity) :
    t'.Holds S := by
  obtain ⟨hsound, hmem, hroom⟩ := h
  refine ⟨htree ▸ hsound, htree ▸ hmem, ?_⟩
  rw [size, htree]
  exact Nat.le_trans hroom hcapacity

theorem size_eq (h : t.Holds S) : t.size = S.card := by
  have hS : t.tree.keys.toFinset = S := Finset.ext fun key => by rw [List.mem_toFinset, h.mem]
  rw [← hS, List.toFinset_card_of_nodup h.sound.nodup, length_keys]

theorem insert_snd_iff (h : t.Holds S) (key : Int64) : (t.tree.insert key).2 = true ↔ key ∉ S := by
  rw [← h.mem]
  by_cases hkey : key ∈ t.tree.keys
  · rw [h.sound.insert_of_mem hkey]
    exact iff_of_false Bool.false_ne_true fun hnot => hnot hkey
  · obtain ⟨tree, hinsert, -, -⟩ := h.sound.insert_of_not_mem hkey
    rw [hinsert]
    exact iff_of_true rfl hkey

/-- A row that is added finds room, because a full timeline doubles its room. -/
theorem place (h : t.Holds S) (key : Int64) : (t.place key).1.Holds (Insert.insert key S) := by
  obtain ⟨hsound, hmem, hroom⟩ := h
  obtain ⟨tree, capacity, revision, tracker⟩ := t
  change tree.size ≤ capacity at hroom
  by_cases hkey : key ∈ tree.keys
  · have hplace : (Timeline.place ⟨tree, capacity, revision, tracker⟩ key).1 =
        ⟨tree, grown capacity tree.size, revision, tracker⟩ := by
      rw [Timeline.place, hsound.insert_of_mem hkey]
    rw [hplace, Finset.insert_eq_self.2 ((hmem key).1 hkey)]
    refine ⟨hsound, hmem, ?_⟩
    change tree.size ≤ grown capacity tree.size
    rw [grown, if_neg (Nat.not_lt.2 hroom)]
    exact hroom
  · obtain ⟨tree', hinsert, hsound', hkeys⟩ := hsound.insert_of_not_mem hkey
    have hplace : (Timeline.place ⟨tree, capacity, revision, tracker⟩ key).1 =
        ⟨tree', grown capacity tree'.size, revision, tracker⟩ := by
      rw [Timeline.place, hinsert]
    have hsize : tree'.size = tree.size + 1 := by
      have hlength := congrArg List.length hkeys
      simpa [RowTree.keys, RowTree.size] using hlength
    rw [hplace]
    refine ⟨hsound', fun k => ?_, ?_⟩
    · change k ∈ tree'.keys ↔ _
      rw [hkeys, List.mem_append, List.mem_singleton, Finset.mem_insert, ← hmem, or_comm]
    · change tree'.size ≤ grown capacity tree'.size
      rw [hsize, grown]
      split
      · split
        · simp only [initialCapacity]
          omega
        · omega
      · omega

theorem placeAll (h : t.Holds S) (keys : List Int64) :
    (t.placeAll keys).1.Holds (S ∪ keys.toFinset) := by
  rw [placeAll_eq]
  induction keys generalizing t S with
  | nil => simpa using h
  | cons key keys ih =>
      have hkeys := ih (h.place key)
      rwa [Finset.insert_union, ← Finset.union_insert, ← List.toFinset_cons] at hkeys

theorem empty : Timeline.empty.Holds ∅ :=
  ⟨RowTree.sound_empty, fun key => by simp [Timeline.empty, RowTree.keys], Nat.le_refl 0⟩

theorem insertSilently (h : t.Holds S) (key : Int64) :
    (t.insertSilently key).1.Holds (Insert.insert key S) := by
  unfold Timeline.insertSilently
  dsimp only
  split
  · exact (h.place key).congr rfl (Nat.le_refl _)
  · exact h.place key

theorem insert (h : t.Holds S) (key : Int64) :
    (t.insert key).1.Holds (Insert.insert key S) := by
  unfold Timeline.insert
  dsimp only
  split
  · exact (h.insertSilently key).congr rfl (Nat.le_refl _)
  · exact h.insertSilently key

theorem truncate (h : t.Holds S) (bound : Int64) :
    (t.truncate bound).Holds (S.filter (· < bound)) := by
  have hemptied : ({ t with tree := {}, capacity := initialCapacity } : Timeline).Holds ∅ :=
    empty.congr rfl (Nat.zero_le _)
  have hleft := hemptied.placeAll (t.tree.keys.filter (· < bound))
  have hS : ∅ ∪ (t.tree.keys.filter (· < bound)).toFinset = S.filter (· < bound) := by
    ext key
    simp [h.mem]
  rw [hS] at hleft
  exact hleft.congr rfl (Nat.le_refl _)

theorem merge (h : t.Holds S) (keys : List Int64) : (t.merge keys).Holds (S ∪ keys.toFinset) := by
  have hroom : (t.makeRoom (t.size + keys.length)).Holds S := h.congr rfl (Nat.le_max_right ..)
  have hkeys := hroom.placeAll keys
  unfold Timeline.merge
  dsimp only
  split
  · exact hkeys
  split
  · exact hkeys.congr rfl (Nat.le_refl _)
  · exact hkeys.congr rfl (Nat.le_refl _)

theorem on (h : t.Holds S) (action : Action) : (action.on t).Holds (action.onKeys S) := by
  cases action with
  | insert key => exact h.insert key
  | insertSilently key => exact h.insertSilently key
  | truncate bound => exact h.truncate bound
  | save => exact h.congr rfl (Nat.le_refl _)
  | reserve rows =>
      obtain ⟨htree, hcapacity⟩ := Action.on_reserve rows t
      exact h.congr htree hcapacity
  | load buffer =>
      rw [Action.onKeys_load]
      rcases Action.on_load buffer t with hmerge | ⟨hnothing, hleft⟩
      · rw [hmerge]
        exact h.merge _
      · rw [hnothing, hleft]
        simpa using h

theorem run (h : t.Holds S) (actions : List Action) :
    (t.run actions).Holds (keysAfter S actions) := by
  induction actions generalizing t S with
  | nil => exact h
  | cons action actions ih => exact ih (h.on action)

end Holds

theorem isOk_load_iff : (t.load buffer).isOk = true ↔ ∃ keys, Spells buffer keys := by
  constructor
  · intro h
    cases hload : t.load buffer with
    | error e =>
        rw [hload] at h
        cases h
    | ok t' => exact exists_spells hload
  · rintro ⟨keys, hspells⟩
    rcases load_spelled hspells t with hload | ⟨-, hload⟩
    · rw [hload]
      rfl
    · rw [hload]
      rfl

/-- Whatever was done to a timeline that began empty, it answers as the set of keys that is left: it
has its size, an insertion tells whether the key is new, a load is accepted exactly if the buffer
spells some keys, which are those that come into the set, and the search for the greatest key up to
a bound finds the greatest one in the set. -/
theorem refines_set (actions : List Action) :
    let t := empty.run actions
    let S := keysAfter ∅ actions
    t.size = S.card ∧
    (∀ key, (t.insert key).2 = true ↔ key ∉ S) ∧
    (∀ key, (t.insertSilently key).2 = true ↔ key ∉ S) ∧
    (∀ buffer, (t.load buffer).isOk = true ↔ ∃ keys, Spells buffer keys) ∧
    (∀ buffer keys, Spells buffer keys ↔ stored? buffer = some keys) ∧
    (∀ key, t.contains key = true ↔ key ∈ S) ∧
    (∀ key m, t.floor? key = some m ↔ m ∈ S ∧ m ≤ key ∧ ∀ x ∈ S, x ≤ key → x ≤ m) ∧
    ∀ key, t.floor? key = none ↔ ∀ x ∈ S, key < x := by
  intro t S
  have h : t.Holds S := Holds.empty.run actions
  refine ⟨h.size_eq, fun key => ?_, fun key => ?_, fun buffer => isOk_load_iff,
    fun buffer keys => stored?_eq_some_iff.symm, fun key => ?_, fun key m => ?_, fun key => ?_⟩
  · rw [insert_snd, h.insert_snd_iff]
  · rw [insertSilently_snd, h.insert_snd_iff]
  · rw [contains, h.sound.contains_iff, h.mem]
  · rw [floor?, h.sound.floor?_eq_some_iff]
    simp only [h.mem]
  · rw [floor?, h.sound.floor?_eq_none_iff]
    simp only [h.mem]

/-- Whatever was done to a timeline that began empty, its rows are a red-black tree, there is room
for all of them, and no way down the tree is longer than twice the logarithm of their number. -/
theorem redBlack_run (actions : List Action) :
    let t := empty.run actions
    t.tree.RedBlack ∧ t.tree.keys.length = t.size ∧ t.size ≤ t.capacity ∧
      ∀ rows blacks, t.tree.Descends t.tree.root rows blacks →
        rows ≤ 2 * Nat.log2 (t.size + 1) := by
  intro t
  have h : t.Holds (keysAfter ∅ actions) := Holds.empty.run actions
  exact ⟨h.sound.redBlack, t.length_keys, h.room, fun rows blacks hd => h.sound.descends_le hd⟩

theorem sort_eq {le : Int64 → Int64 → Prop} [DecidableRel le] [IsTrans Int64 le]
    [Std.Antisymm le] [Std.Total le] {l : List Int64} (hnodup : l.Nodup) (hle : l.Pairwise le)
    (hmem : ∀ k, k ∈ l ↔ k ∈ S) : S.sort le = l := by
  have hS : l.toFinset = S := Finset.ext fun k => by rw [List.mem_toFinset, hmem]
  rw [← hS]
  exact (List.toFinset_sort le hnodup).2 hle

/-- Whatever was done to a timeline that began empty, its loops come to an end and meet no absent
row. The loop over all keys visits the set of keys that is left in ascending order, the outermost
rows have its least and its greatest key, and the loop over an interval visits the greatest keys in
it in descending order, as many as it may. -/
theorem traversals_exact (actions : List Action) :
    let t := empty.run actions
    let S := keysAfter ∅ actions
    (t.toList = S.sort (· ≤ ·) ∧ t.tree.Iterates t.toList) ∧
    (∀ m, t.first? = some m ↔ m ∈ S ∧ ∀ x ∈ S, m ≤ x) ∧
    (∀ m, t.last? = some m ↔ m ∈ S ∧ ∀ x ∈ S, x ≤ m) ∧
    (∀ side, t.tree.Ends side (t.tree.endRow side)) ∧
    ∀ start stop count,
      t.range start stop count =
        ((S.filter fun k => start ≤ k ∧ k ≤ stop).sort (· ≥ ·)).take count ∧
      t.tree.Ranges start stop count (t.range start stop count) := by
  intro t S
  have h : t.Holds S := Holds.empty.run actions
  obtain ⟨keys, hsorted, hmem, htraversed⟩ := h.sound.traversed
  have hS : ∀ k, k ∈ keys ↔ k ∈ S := fun k => (hmem k).trans (h.mem k)
  have hnodup : keys.Nodup := hsorted.imp Int64.ne_of_lt
  have hlist : t.toList = keys := htraversed.toList
  refine ⟨⟨?_, hlist ▸ htraversed.iterates⟩, fun m => ?_, fun m => ?_, htraversed.ends,
    fun start stop count => ⟨?_, htraversed.ranges start stop count⟩⟩
  · rw [hlist, sort_eq hnodup (hsorted.imp Int64.le_of_lt) hS]
  · rw [first?, htraversed.first, RowTree.head?_eq_some_iff hsorted]
    simp only [hS]
  · rw [last?, htraversed.last, RowTree.getLast?_eq_some_iff hsorted]
    simp only [hS]
  · have hdescending : ((keys.filter fun k => decide (start ≤ k ∧ k ≤ stop)).reverse).Pairwise
        (· ≥ ·) := List.pairwise_reverse.2 ((hsorted.filter _).imp Int64.le_of_lt)
    rw [range, htraversed.range, sort_eq (List.nodup_reverse.2 (hnodup.filter _)) hdescending]
    simp [hS]

end ChunkCache.Timeline
