import Mathlib.Data.List.Sort
import ChunkCache.Proofs.Operation
import ChunkCache.Proofs.RecordStore

namespace ChunkCache

namespace SortedMap

variable {κ β : Type} [Ord κ] [Std.TransOrd κ] [Std.LawfulEqOrd κ]
variable {k : κ} {v : β} {l : List (κ × β)} {m n : SortedMap κ β}

omit [Std.TransOrd κ] in
theorem mem_of_find (h : find k l = some v) : (k, v) ∈ l := by
  induction l with
  | nil => cases h
  | cons e l ih =>
      rw [find] at h
      split at h
      · rename_i hk
        obtain rfl := Std.LawfulEqCmp.eq_of_compare hk
        cases h
        exact List.mem_cons_self
      · exact List.mem_cons_of_mem _ (ih h)

omit [Std.TransOrd κ] in
theorem nodup_keys (m : SortedMap κ β) : (m.entries.map Prod.fst).Nodup := by
  refine List.pairwise_map.2 (m.ascending.imp fun {e e'} hlt heq => ?_)
  have hself : compare e'.1 e'.1 = .eq := Std.ReflCmp.compare_self
  rw [heq, hself] at hlt
  cases hlt

theorem mem_entries_iff : (k, v) ∈ m.entries ↔ m.get? k = some v := by
  refine ⟨fun h => ?_, mem_of_find⟩
  rw [← m.insertMany_entries]
  exact get?_insertMany_of_mem _ m.nodup_keys h

/-- A map is determined by its answers. -/
theorem ext_get? (h : ∀ k, m.get? k = n.get? k) : m = n := by
  have hasymm : ∀ a b : κ × β, compare a.1 b.1 = .lt → compare b.1 a.1 ≠ .lt :=
    fun a b hlt => Std.OrientedCmp.not_lt_of_lt hlt
  have hantisymm : Std.Antisymm fun a b : κ × β => compare a.1 b.1 = .lt :=
    ⟨fun a b hab hba => absurd hba (hasymm a b hab)⟩
  have hirrefl : Std.Irrefl fun a b : κ × β => compare a.1 b.1 = .lt :=
    ⟨fun a ha => hasymm a a ha ha⟩
  refine ext_entries (m.ascending.eq_of_mem_iff n.ascending ?_)
  rintro ⟨k, v⟩
  rw [mem_entries_iff, mem_entries_iff, h]

/-- Of pairs with one key the last one wins, and the pairs win over what was there. -/
theorem get?_insertMany [BEq κ] [LawfulBEq κ] (m : SortedMap κ β) (pairs : List (κ × β)) (k : κ) :
    (m.insertMany pairs).get? k = (pairs.reverse.lookup k).or (m.get? k) := by
  induction pairs generalizing m with
  | nil => rfl
  | cons e pairs ih =>
      obtain ⟨k', v⟩ := e
      have hfirst : (m.insert k' v).get? k = (List.lookup k [(k', v)]).or (m.get? k) := by
        by_cases hk : k = k'
        · rw [hk, get?_insert_self, List.lookup_cons_self]
          rfl
        · rw [get?_insert_of_ne m hk, List.lookup_cons, beq_false_of_ne hk]
          rfl
      change ((m.insert k' v).insertMany pairs).get? k = _
      rw [ih, hfirst, List.reverse_cons, List.lookup_append, Option.or_assoc]

/-- The entries of another map win over those that were there. -/
theorem get?_insertMany_entries (m n : SortedMap κ β) (k : κ) :
    (m.insertMany n.entries).get? k = (n.get? k).or (m.get? k) := by
  cases h : n.get? k with
  | none =>
      refine get?_insertMany_of_not_mem m fun hk => ?_
      obtain ⟨e, he, rfl⟩ := List.mem_map.1 hk
      exact find_eq_none_iff.1 h e he Std.ReflCmp.compare_self
  | some v => exact get?_insertMany_of_mem m n.nodup_keys (mem_entries_iff.2 h)

/-- Entries that a map has already are put into it without a change, and no others are. -/
theorem insertMany_entries_eq_self_iff :
    m.insertMany n.entries = m ↔ ∀ k v, n.get? k = some v → m.get? k = some v := by
  constructor
  · intro h k v hk
    rw [← h, get?_insertMany_entries, hk]
    rfl
  · intro h
    have hall : ∀ l ⊆ n.entries, m.insertMany l = m := by
      intro l hl
      induction l with
      | nil => rfl
      | cons e l ih =>
          obtain ⟨he, hl⟩ := List.cons_subset.1 hl
          change (m.insert e.1 e.2).insertMany l = m
          rw [insert_of_get? (h e.1 e.2 (mem_entries_iff.1 he)), ih hl]
    exact hall _ (List.Subset.refl _)

end SortedMap

namespace Content

/-- What is left of a content when a saved form of `stored` is merged into it. -/
def merge : Content → (stored : Content) → Content
  | attributes values, attributes stored => .attributes (values.insertMany stored.entries)
  | divergences entries code, divergences stored storedCode =>
    .divergences (entries.insertMany stored.entries)
      (if storedCode = absentLong then code else storedCode)
  | timeline keys, timeline stored => .timeline (stored.foldl addKey keys)
  | generator idPrefix seed, generator _ stored =>
    .generator idPrefix (if seed < stored then stored else seed)
  | content, _ => content

theorem foldl_addKey_of_subset {keys l : List Int64} (h : l ⊆ keys) :
    l.foldl addKey keys = keys := by
  induction l with
  | nil => rfl
  | cons key l ih =>
      obtain ⟨hkey, hl⟩ := List.cons_subset.1 h
      rw [List.foldl_cons, addKey, if_pos hkey, ih hl]

/-- Merging what is there already changes nothing. -/
theorem merge_self (content : Content) : content.merge content = content := by
  cases content with
  | attributes values =>
      exact congrArg attributes (SortedMap.insertMany_entries_eq_self_iff.2 fun _ _ h => h)
  | divergences entries code =>
      rw [merge, SortedMap.insertMany_entries_eq_self_iff.2 fun _ _ h => h, ite_self]
  | timeline keys => exact congrArg timeline (foldl_addKey_of_subset (List.Subset.refl keys))
  | generator idPrefix seed => rw [merge, ite_self]

end Content

variable {a : Address}

namespace RowTree

variable {t : RowTree}

theorem Grown.keys_insert (h : t.Grown) (key : Int64) :
    (t.insert key).1.keys = Content.addKey t.keys key := by
  unfold Content.addKey
  split
  · rw [h.sound.insert_of_mem ‹_›]
  · obtain ⟨tree, hinsert, -, hkeys⟩ := h.sound.insert_of_not_mem ‹_›
    rw [hinsert, hkeys]

theorem Grown.keys_insertAll (h : t.Grown) (keys : List Int64) :
    (keys.foldl (fun t key => (t.insert key).1) t).keys = keys.foldl Content.addKey t.keys := by
  induction keys generalizing t with
  | nil => rfl
  | cons key keys ih => rw [List.foldl_cons, List.foldl_cons, ih (h.insert key), h.keys_insert]

end RowTree

theorem Timeline.keys_merge {t : Timeline} (h : t.tree.Grown) (keys : List Int64) :
    (t.merge keys).tree.keys = keys.foldl Content.addKey t.tree.keys := by
  rw [(t.merge_spec keys).2, h.keys_insertAll]

namespace Divergences

variable {d : Divergences}

theorem code_merge (d : Divergences) (code : Int64) (pairs : List (Int64 × Int64)) :
    (d.merge code pairs).code = if code = absentLong then d.code else code := by
  change (if (code ≠ absentLong && code ≠ d.code) = true then code else d.code) = _
  by_cases habsent : code = absentLong
  · simp [habsent]
  · by_cases hsame : code = d.code
    · simp [hsame]
    · simp [habsent, hsame]

theorem entries_merge (d : Divergences) (code : Int64) (pairs : List (Int64 × Int64)) :
    (d.merge code pairs).entries = d.entries.insertMany pairs :=
  putAll_eq d.entries pairs

end Divergences

theorem IdGenerator.seed_merge (g : IdGenerator) (stored : Int64) :
    (g.merge stored).idPrefix = g.idPrefix ∧
      (g.merge stored).seed = if g.seed < stored then stored else g.seed := by
  unfold merge
  split
  · exact ⟨rfl, rfl⟩
  · split
    · exact ⟨rfl, rfl⟩
    · exact ⟨rfl, rfl⟩

/-- A saved form is accepted by every payload of its address, and is merged into what it holds. -/
theorem Payload.load_encode_merge {p q : Payload} (hp : p.Regular a) (hq : q.Regular a)
    (hfits : q.content.Fits) (own : Ownership) :
    ∃ p', p.load own q.encode = .ok p' ∧ p'.content = p.content.merge q.content ∧
      p'.Regular a := by
  have hkind : p.kind = q.kind := hp.kind_eq.trans hq.kind_eq.symm
  suffices h : ∃ p', p.load own q.encode = .ok p' ∧ p'.content = p.content.merge q.content by
    obtain ⟨p', hload, hcontent⟩ := h
    exact ⟨p', hload, hcontent, hp.load hload⟩
  cases q with
  | attributes n =>
      cases p with
      | attributes m =>
          exact ⟨.attributes (m.merge own n.toList),
            congrArg (Except.map attributes) (AttributeMap.load_encode_eq hfits m own),
            congrArg Content.attributes (m.values_merge own n.toList)⟩
      | _ => cases hkind
  | divergences n =>
      cases p with
      | divergences d =>
          refine ⟨.divergences (d.merge n.code n.toList),
            congrArg (Except.map divergences) (d.load_encode_eq n), ?_⟩
          rw [content, Divergences.entries_merge, Divergences.code_merge]
          rfl
      | _ => cases hkind
  | timeline n =>
      cases p with
      | timeline t =>
          have hsize : n.size ≤ Field.maxCount := by
            rw [← n.length_keys]
            exact hfits
          refine ⟨.timeline (t.merge n.tree.keys),
            congrArg (Except.map timeline) (Timeline.load_encode_eq hsize t),
            congrArg Content.timeline (Timeline.keys_merge hp.2 n.tree.keys)⟩
      | _ => cases hkind
  | generator n =>
      cases p with
      | generator g =>
          obtain ⟨hkept, hseed⟩ := g.seed_merge n.seed
          refine ⟨.generator (g.merge n.seed),
            congrArg (Except.map generator) (IdGenerator.load_encode_eq hq.2.2.2 g), ?_⟩
          rw [content, hkept, hseed]
          rfl
      | _ => cases hkind

end ChunkCache
