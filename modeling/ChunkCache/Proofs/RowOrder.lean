import Mathlib.Data.List.Dedup
import ChunkCache.Proofs.Merge
import ChunkCache.Proofs.Timeline

namespace ChunkCache

namespace Timeline

variable {t : Timeline} {tree : RowTree} {S : Finset Int64} {log : List Int64} {key : Int64}

/-- Those of some keys, put into a set one after the other, that are not in it yet. -/
def entering (S : Finset Int64) : List Int64 → List Int64
  | [] => []
  | key :: keys => (if key ∈ S then [] else [key]) ++ entering (Insert.insert key S) keys

/-- The keys that an action puts into the set. -/
noncomputable def Action.puts : Action → List Int64
  | insert key | insertSilently key => [key]
  | load buffer => (stored? buffer).getD []
  | truncate _ | reserve _ | save => []

/-- The keys that enter a set by some actions, in the order in which they do. A key that was removed
may enter again. -/
noncomputable def entered (S : Finset Int64) : List Action → List Int64
  | [] => []
  | action :: actions => entering S action.puts ++ entered (action.onKeys S) actions

/-- The tree grows from its own keys. They are those of a set, by the last time at which they
entered it. -/
structure Logs (tree : RowTree) (S : Finset Int64) (log : List Int64) : Prop where
  grown : tree.Grown
  mem : ∀ key, key ∈ tree.keys ↔ key ∈ S
  order : tree.keys = log.dedup.filter (· ∈ S)

theorem entering_cons (S : Finset Int64) (key : Int64) (keys : List Int64) :
    entering S (key :: keys) = entering S [key] ++ entering (Insert.insert key S) keys := by
  rw [entering, entering, entering, List.append_nil]

/-- A key that enters a set comes after those that are in it, whenever it was in it before. -/
theorem filter_dedup_entered (hkey : key ∉ S) :
    (log ++ [key]).dedup.filter (· ∈ Insert.insert key S) = log.dedup.filter (· ∈ S) ++ [key] := by
  -- The first entry of a log counts only if its key does not enter again.
  induction log with
  | nil => simp
  | cons k log ih =>
      by_cases heq : k = key
      · subst heq
        rw [List.cons_append,
          List.dedup_cons_of_mem (List.mem_append_right _ List.mem_cons_self), ih]
        by_cases hlog : k ∈ log
        · rw [List.dedup_cons_of_mem hlog]
        · rw [List.dedup_cons_of_notMem hlog, List.filter_cons_of_neg (by simpa using hkey)]
      · have hmem : k ∈ log ++ [key] ↔ k ∈ log := by simp [heq]
        by_cases hlog : k ∈ log
        · rw [List.cons_append, List.dedup_cons_of_mem (hmem.2 hlog), ih,
            List.dedup_cons_of_mem hlog]
        · rw [List.cons_append, List.dedup_cons_of_notMem (mt hmem.1 hlog),
            List.dedup_cons_of_notMem hlog, List.filter_cons, List.filter_cons, ih]
          by_cases hS : k ∈ S <;> simp [heq, hS]

namespace Logs

theorem empty : Logs {} ∅ [] := ⟨RowTree.grown_empty, fun _ => by simp [RowTree.keys], rfl⟩

theorem insert (h : Logs tree S log) (key : Int64) :
    Logs (tree.insert key).1 (Insert.insert key S) (log ++ entering S [key]) := by
  have hkeys := h.grown.keys_insert key
  unfold Content.addKey at hkeys
  rw [entering, entering, List.append_nil]
  by_cases hkey : key ∈ S
  · rw [if_pos ((h.mem key).2 hkey)] at hkeys
    rw [if_pos hkey, List.append_nil, Finset.insert_eq_self.2 hkey]
    exact ⟨h.grown.insert key, hkeys ▸ h.mem, hkeys ▸ h.order⟩
  · rw [if_neg (mt (h.mem key).1 hkey)] at hkeys
    rw [if_neg hkey]
    refine ⟨h.grown.insert key, fun k => ?_, ?_⟩
    · rw [hkeys, List.mem_append, List.mem_singleton, Finset.mem_insert, h.mem, or_comm]
    · rw [hkeys, h.order, filter_dedup_entered hkey]

theorem insertAll (h : Logs tree S log) (keys : List Int64) :
    Logs (keys.foldl (fun tree key => (tree.insert key).1) tree) (S ∪ keys.toFinset)
      (log ++ entering S keys) := by
  induction keys generalizing tree S log with
  | nil => simpa [entering] using h
  | cons key keys ih =>
      have hkeys := ih (h.insert key)
      rwa [Finset.insert_union, ← Finset.union_insert, ← List.toFinset_cons, List.append_assoc,
        ← entering_cons] at hkeys

/-- Keys that are removed leave the others in their order. -/
theorem filter (h : Logs tree S log) (p : Int64 → Prop) [DecidablePred p] :
    Logs (.ofKeys (tree.keys.filter (p ·))) (S.filter p) log := by
  have hkeys := RowTree.keys_ofKeys (h.grown.sound.nodup.filter (p ·))
  refine ⟨RowTree.grown_ofKeys _, fun key => ?_, ?_⟩
  · simp [hkeys, h.mem]
  · rw [hkeys, h.order, List.filter_filter]
    exact List.filter_congr fun key _ => by simp [and_comm]

end Logs

theorem tree_insert (t : Timeline) (key : Int64) :
    (t.insert key).1.tree = (t.tree.insert key).1 := by
  rw [← t.tree_insertSilently]
  unfold insert
  dsimp only
  split <;> rfl

theorem tree_insertAll (t : Timeline) (keys : List Int64) :
    (t.insertAll keys).1.tree = keys.foldl (fun tree key => (tree.insert key).1) t.tree := by
  induction keys generalizing t with
  | nil => rfl
  | cons key keys ih =>
      rw [List.foldl_cons, ← t.tree_insert]
      exact ih (t.insert key).1

theorem tree_truncate (t : Timeline) (bound : Int64) :
    (t.truncate bound).tree = .ofKeys (t.tree.keys.filter (· < bound)) :=
  tree_placeAll _ _ false

theorem Logs.on (h : Logs t.tree S log) (action : Action) :
    Logs (action.on t).tree (action.onKeys S) (log ++ entering S action.puts) := by
  cases action with
  | insert key =>
      rw [Action.on, tree_insert]
      exact h.insert key
  | insertSilently key =>
      rw [Action.on, tree_insertSilently]
      exact h.insert key
  | truncate bound =>
      rw [Action.on, tree_truncate, Action.puts, entering, List.append_nil]
      exact h.filter (· < bound)
  | save =>
      rw [Action.puts, entering, List.append_nil]
      exact h
  | reserve rows =>
      rw [(Action.on_reserve rows t).1, Action.puts, entering, List.append_nil]
      exact h
  | load buffer =>
      rw [Action.onKeys_load, Action.puts]
      rcases Action.on_load buffer t with hmerge | ⟨hnothing, hleft⟩
      · rw [hmerge, (t.merge_spec _).2]
        exact h.insertAll _
      · rw [hnothing, hleft]
        simpa [entering] using h

theorem Logs.run (h : Logs t.tree S log) (actions : List Action) :
    Logs (t.run actions).tree (keysAfter S actions) (log ++ entered S actions) := by
  induction actions generalizing t S log with
  | nil =>
      rw [entered, List.append_nil]
      exact h
  | cons action actions ih =>
      rw [entered, ← List.append_assoc]
      exact ih (h.on action)

theorem tree_eq_of_isEmpty (h : t.tree.Grown) (hempty : t.isEmpty = true) : t.tree = {} := by
  have hkeys : t.tree.keys = [] := by
    rw [RowTree.keys, Array.isEmpty_iff.1 hempty]
    rfl
  rw [← show RowTree.ofKeys t.tree.keys = t.tree from h, hkeys]
  rfl

/-- Whatever was done to a timeline that began empty, its tree with all links and colors is the one
that grows from its keys in row order, which is the order in which they last entered the set. So the
saved form brings the same tree back into every empty timeline, if its count can tell the number of
keys, and removing keys leaves the tree that grows from the others. -/
theorem rows_determine_tree (actions : List Action) :
    let t := empty.run actions
    (empty.insertAll t.tree.keys).1.tree = t.tree ∧
    t.tree.keys = (entered ∅ actions).dedup.filter (· ∈ keysAfter ∅ actions) ∧
    (t.size ≤ Field.maxCount → ∀ others, (empty.run others).isEmpty →
      ∃ t', (empty.run others).load t.save.1 = .ok t' ∧ t'.tree = t.tree) ∧
    ∀ bound, (t.truncate bound).tree =
      (empty.insertAll (t.tree.keys.filter (· < bound))).1.tree := by
  intro t
  have hrun (actions : List Action) :
      Logs (empty.run actions).tree (keysAfter ∅ actions) (entered ∅ actions) :=
    Logs.empty.run (t := empty) actions
  have h := hrun actions
  refine ⟨?_, h.order, fun hsize others hempty => ?_, fun bound => ?_⟩
  · rw [tree_insertAll]
    exact h.grown
  · have hnone := tree_eq_of_isEmpty (hrun others).grown hempty
    obtain ⟨t', hload, htree, -⟩ := load_encode hnone h.grown hsize
    exact ⟨t', hload, htree⟩
  · rw [tree_truncate, tree_insertAll]
    rfl

/-- The key 3 is removed and comes back with a saved form, after two keys that stayed and a new
one. A timeline whose only key was removed loads the same tree. -/
theorem rows_determine_tree_reentered :
    let actions := [.insert 3, .insert 1, .insertSilently 2, .truncate 3,
      .load (empty.insertAll [2, 5, 3]).1.encode]
    let t := empty.run actions
    let others := [.insert 7, .truncate 0]
    t.size ≤ Field.maxCount ∧ (empty.run others).isEmpty ∧ t.tree.keys = [1, 2, 5, 3] ∧
      entered ∅ actions = [3, 1, 2, 5, 3] ∧
      ∃ t', (empty.run others).load t.save.1 = .ok t' ∧ t'.tree = t.tree := by
  intro actions t others
  have hsize : t.size ≤ Field.maxCount := by decide +kernel
  have hempty : (empty.run others).isEmpty := by decide +kernel
  have hkeys : t.tree.keys = [1, 2, 5, 3] := by decide +kernel
  have hstored : stored? (empty.insertAll [2, 5, 3]).1.encode = some [2, 5, 3] :=
    stored?_eq_some_iff.2 (.inr ⟨by decide, by decide +kernel⟩)
  have hentered : entered ∅ actions = [3, 1, 2, 5, 3] := by
    simp [actions, entered, entering, Action.puts, Action.onKeys, hstored]
  exact ⟨hsize, hempty, hkeys, hentered, (rows_determine_tree actions).2.2.1 hsize others hempty⟩

end Timeline

end ChunkCache
