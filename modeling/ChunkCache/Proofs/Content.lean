import ChunkCache.Proofs.Formats
import ChunkCache.Proofs.RowTree.Insertion

namespace ChunkCache

namespace SortedMap

variable {κ β γ : Type} [Ord κ] {k : κ} {v : β} {f : β → γ} {l : List (κ × β)}

/-- The map with every value replaced by its image. -/
def mapValues (f : β → γ) (m : SortedMap κ β) : SortedMap κ γ where
  entries := m.entries.map fun e => (e.1, f e.2)
  ascending := List.pairwise_map.2 m.ascending

theorem find_map : find k (l.map fun e => (e.1, f e.2)) = (find k l).map f := by
  induction l with
  | nil => rfl
  | cons e l ih =>
      rw [List.map_cons, find, find]
      split
      · rfl
      · exact ih

theorem place_map :
    place k (f v) (l.map fun e => (e.1, f e.2)) = (place k v l).map fun e => (e.1, f e.2) := by
  induction l with
  | nil => rfl
  | cons e l ih =>
      rw [List.map_cons, place, place]
      cases compare k e.1 with
      | lt => rfl
      | eq => rfl
      | gt => exact congrArg ((e.1, f e.2) :: ·) ih

theorem drop_map : drop k (l.map fun e => (e.1, f e.2)) = (drop k l).map fun e => (e.1, f e.2) := by
  rw [drop, List.filter_map]
  rfl

theorem get?_mapValues (m : SortedMap κ β) : (m.mapValues f).get? k = (m.get? k).map f := find_map

theorem mapValues_erase (m : SortedMap κ β) : (m.erase k).mapValues f = (m.mapValues f).erase k :=
  ext_entries drop_map.symm

theorem find_eq_none_iff : find k l = none ↔ ∀ e ∈ l, compare k e.1 ≠ .eq := by
  refine ⟨fun h e he => ?_, find_eq_none⟩
  induction l with
  | nil => exact absurd he List.not_mem_nil
  | cons head l ih =>
      rw [find] at h
      split at h
      · cases h
      · rcases List.mem_cons.1 he with rfl | he
        · assumption
        · exact ih h he

theorem erase_of_get?_eq_none {m : SortedMap κ β} (h : m.get? k = none) : m.erase k = m :=
  ext_entries (drop_eq_self (find_eq_none_iff.1 h))

variable [Std.TransOrd κ] [Std.LawfulEqOrd κ]

theorem mapValues_insert (m : SortedMap κ β) :
    (m.insert k v).mapValues f = (m.mapValues f).insert k (f v) :=
  ext_entries place_map.symm

theorem mapValues_insertMany (m : SortedMap κ β) (pairs : List (κ × β)) :
    (m.insertMany pairs).mapValues f =
      (m.mapValues f).insertMany (pairs.map fun e => (e.1, f e.2)) := by
  induction pairs generalizing m with
  | nil => rfl
  | cons e pairs ih =>
      change ((m.insert e.1 e.2).insertMany pairs).mapValues f = _
      rw [ih, mapValues_insert]
      rfl

theorem place_of_find (hl : l.Pairwise fun a b => compare a.1 b.1 = .lt)
    (h : find k l = some v) : place k v l = l := by
  induction l with
  | nil => cases h
  | cons e l ih =>
      rw [find] at h
      rw [place]
      cases hk : compare k e.1 with
      | eq =>
          rw [if_pos hk] at h
          obtain rfl := Std.LawfulEqCmp.eq_of_compare hk
          cases h
          rfl
      | gt =>
          rw [if_neg (by simp [hk])] at h
          exact congrArg (e :: ·) (ih hl.of_cons h)
      | lt =>
          rw [if_neg (by simp [hk])] at h
          have hnone : find k l = none := by
            refine find_eq_none fun e' he' heq => ?_
            have hlt := Std.TransCmp.lt_trans hk ((List.pairwise_cons.1 hl).1 e' he')
            rw [heq] at hlt
            cases hlt
          rw [hnone] at h
          cases h

theorem insert_of_get? {m : SortedMap κ β} (h : m.get? k = some v) : m.insert k v = m :=
  ext_entries (place_of_find m.ascending h)

end SortedMap

/-- The attributes without the record of what is shared. -/
def AttributeMap.values (m : AttributeMap) : SortedMap Int64 Value := m.entries.mapValues (·.value)

/-- What a chunk holds. -/
inductive Content where
  | attributes (values : SortedMap Int64 Value)
  | divergences (entries : SortedMap Int64 Int64) (code : Int64)
  /-- The keys in the order in which they came. -/
  | timeline (keys : List Int64)
  | generator (idPrefix seed : Int64)
  deriving DecidableEq

def Payload.content : Payload → Content
  | .attributes m => .attributes m.values
  | .divergences d => .divergences d.entries d.code
  | .timeline t => .timeline t.tree.keys
  | .generator g => .generator g.idPrefix g.seed

/-- The number in the address of a generator is a prefix. -/
def Address.Admissible (a : Address) : Prop :=
  a.kind = .generator → 0 ≤ a.id ∧ a.id ≤ IdGenerator.maxPrefix

instance (a : Address) : Decidable a.Admissible := inferInstanceAs (Decidable (_ → _))

/-- What holds of every payload that comes about under an address. -/
def Payload.Regular (a : Address) : Payload → Prop
  | .attributes _ => a.kind = .attributes
  | .divergences _ => a.kind = .divergences
  | .timeline t => a.kind = .timeline ∧ t.tree.Grown
  | .generator g =>
    a.kind = .generator ∧ g.idPrefix = a.id ∧
      (0 ≤ g.idPrefix ∧ g.idPrefix ≤ IdGenerator.maxPrefix) ∧
      0 ≤ g.seed ∧ g.seed ≤ IdGenerator.seedLimit

namespace Content

/-- The content of a chunk that holds nothing. -/
def empty (a : Address) : Content :=
  match a.kind with
  | .attributes => .attributes .empty
  | .divergences => .divergences .empty absentLong
  | .timeline => .timeline []
  | .generator => .generator a.id 0

/-- Counts can tell the numbers of items. -/
def Fits : Content → Prop
  | attributes values => ∀ e ∈ values.entries, e.2.Fits
  | timeline keys => keys.length ≤ Field.maxCount
  | _ => True

instance : (content : Content) → Decidable content.Fits
  | .attributes values =>
    inferInstanceAs (Decidable (∀ e ∈ values.entries, e.2.itemCount ≤ Field.maxCount))
  | .timeline keys => inferInstanceAs (Decidable (keys.length ≤ Field.maxCount))
  | .divergences _ _ | .generator _ _ => isTrue trivial

theorem fits_empty (a : Address) : (empty a).Fits := by
  unfold empty
  cases a.kind with
  | attributes => exact fun e he => absurd he List.not_mem_nil
  | timeline => exact Nat.zero_le _
  | _ => trivial

end Content

variable {a : Address}

namespace AttributeMap

variable {m n : AttributeMap}

theorem isEmpty_eq (m : AttributeMap) : m.isEmpty = m.values.entries.isEmpty := by
  simp [isEmpty, SortedMap.isEmpty, values, SortedMap.mapValues]

theorem values_merge (m : AttributeMap) (own : Ownership) (records : List (Int64 × Value)) :
    (m.merge own records).values = m.values.insertMany records := by
  have hmerged : ((m.entries.insertMany (records.map fun e => (e.1, ⟨e.2, own.fresh⟩))).mapValues
      Attribute.value) = m.values.insertMany records := by
    rw [SortedMap.mapValues_insertMany, List.map_map]
    exact congrArg m.values.insertMany (List.map_id records)
  unfold merge
  split
  · rename_i hempty
    rw [List.isEmpty_iff.1 hempty]
    rfl
  · dsimp only
    split
    · exact hmerged
    · exact hmerged

theorem load_encode (hm : m.values = .empty) (hn : ∀ e ∈ n.values.entries, e.2.Fits)
    (own : Ownership) :
    ∃ m', m.load own n.encode = .ok m' ∧ m'.values = n.values ∧ m'.tracker = m.tracker := by
  refine ⟨m.merge own n.toList, load_encode_eq hn m own, ?_, ?_⟩
  · rw [values_merge, hm]
    exact n.values.insertMany_entries
  · have hempty : m.isEmpty = true := by rw [isEmpty_eq, hm]; rfl
    unfold merge
    rw [if_pos hempty]
    split
    · rfl
    · rfl

end AttributeMap

namespace Divergences

variable {d n : Divergences}

theorem putAll_eq (entries : SortedMap Int64 Int64) (pairs : List (Int64 × Int64)) :
    (putAll entries pairs).2 = entries.insertMany pairs := by
  induction pairs generalizing entries with
  | nil => rfl
  | cons pair pairs ih => exact ih (entries.insert pair.1 pair.2)

theorem load_encode (hentries : d.entries = .empty) (hcode : d.code = absentLong) :
    ∃ d', d.load n.encode = .ok d' ∧ d'.entries = n.entries ∧ d'.code = n.code ∧
      d'.tracker = d.tracker := by
  have hinitial : d.isInitial = true := by
    rw [isInitial, hentries, hcode]
    rfl
  refine ⟨_, d.load_encode_eq n, ?_, ?_, ?_⟩
  · change (putAll d.entries n.toList).2 = n.entries
    rw [putAll_eq, hentries]
    exact n.entries.insertMany_entries
  · change (if (n.code ≠ absentLong && n.code ≠ d.code) = true then n.code else d.code) = n.code
    rw [hcode]
    split
    · rfl
    · rename_i h
      simp only [ne_eq, decide_not, Bool.and_self, Bool.not_eq_true', decide_eq_false_iff_not,
        Decidable.not_not] at h
      exact h.symm
  · simp [merge, hinitial]

end Divergences

namespace Timeline

variable {t n : Timeline}

theorem tree_placeAll (t : Timeline) (keys : List Int64) (found : Bool) :
    (keys.foldl (fun r key => ((r.1.place key).1, r.2 || (r.1.place key).2)) (t, found)).1.tree =
      keys.foldl (fun tree key => (tree.insert key).1) t.tree := by
  induction keys generalizing t found with
  | nil => rfl
  | cons key keys ih => exact ih (t.place key).1 (found || (t.place key).2)

theorem tracker_placeAll (t : Timeline) (keys : List Int64) :
    (t.placeAll keys).1.tracker = t.tracker := by
  have hfold : ∀ (t : Timeline) (found : Bool), (keys.foldl (fun r key =>
      ((r.1.place key).1, r.2 || (r.1.place key).2)) (t, found)).1.tracker = t.tracker := by
    induction keys with
    | nil => exact fun _ _ => rfl
    | cons key keys ih => exact fun t found => ih (t.place key).1 (found || (t.place key).2)
  exact hfold t false

theorem load_encode (ht : t.tree = {}) (hn : n.tree.Grown) (hfits : n.size ≤ Field.maxCount) :
    ∃ t', t.load n.encode = .ok t' ∧ t'.tree = n.tree ∧ t'.tracker = t.tracker := by
  have htree : ((t.makeRoom (t.size + n.tree.keys.length)).placeAll n.tree.keys).1.tree =
      n.tree := by
    have hfold := tree_placeAll (t.makeRoom (t.size + n.tree.keys.length)) n.tree.keys false
    change _ = n.tree.keys.foldl (fun tree key => (tree.insert key).1) t.tree at hfold
    rw [ht] at hfold
    exact hfold.trans hn
  have hempty : t.isEmpty = true := by
    rw [isEmpty, ht]
    rfl
  refine ⟨_, load_encode_eq hfits t, ?_⟩
  unfold merge
  dsimp only
  rw [if_pos hempty]
  split
  · exact ⟨htree, tracker_placeAll _ _⟩
  · exact ⟨htree, tracker_placeAll _ _⟩

end Timeline

namespace IdGenerator

variable {g n : IdGenerator}

theorem load_encode (hg : g.seed = 0) (hn : 0 ≤ n.seed ∧ n.seed ≤ seedLimit) :
    ∃ g', g.load n.encode = .ok g' ∧ g'.idPrefix = g.idPrefix ∧ g'.seed = n.seed ∧
      g'.tracker = g.tracker := by
  refine ⟨_, load_encode_eq hn g, ?_⟩
  unfold merge
  rw [hg]
  split
  · exact ⟨rfl, rfl, rfl⟩
  · rename_i hlt
    have heq : n.seed = 0 := by
      rw [Int64.lt_iff_toInt_lt] at hlt
      have hle := Int64.le_iff_toInt_le.1 hn.1
      exact Int64.toInt_inj.1 (by omega)
    rw [heq, if_neg (by decide)]
    exact ⟨rfl, hg, rfl⟩

end IdGenerator

namespace Payload

variable {p q : Payload} {fresh : Stamp}

@[simp]
theorem content_mapTracker (f : Tracker → Tracker) (p : Payload) :
    (p.mapTracker f).content = p.content := by
  cases p <;> rfl

@[simp]
theorem regular_mapTracker (f : Tracker → Tracker) :
    (p.mapTracker f).Regular a ↔ p.Regular a := by
  cases p <;> rfl

theorem ofAddress_eq (h : ofAddress a fresh = .ok p) :
    p.content = .empty a ∧ p.Regular a ∧ p.tracker = {} := by
  unfold ofAddress at h
  unfold Content.empty
  cases hkind : a.kind with
  | generator =>
      rw [hkind] at h
      simp only [IdGenerator.ofPrefix] at h
      split at h
      · rename_i hprefix
        cases h
        have hseed : (0 : Int64) ≤ 0 ∧ 0 ≤ IdGenerator.seedLimit := by decide
        exact ⟨rfl, ⟨hkind, rfl, hprefix, hseed⟩, rfl⟩
      · cases h
  | timeline =>
      rw [hkind] at h
      cases h
      exact ⟨rfl, ⟨hkind, RowTree.grown_empty⟩, rfl⟩
  | _ =>
      rw [hkind] at h
      cases h
      exact ⟨rfl, hkind, rfl⟩

/-- Only a number that is no prefix keeps an address from having an empty payload. -/
theorem isOk_ofAddress : (ofAddress a fresh).isOk ↔ a.Admissible := by
  unfold ofAddress Address.Admissible
  cases a.kind with
  | generator =>
      simp only [IdGenerator.ofPrefix, forall_const]
      split
      · rename_i hprefix
        exact iff_of_true rfl hprefix
      · rename_i hprefix
        exact iff_of_false Bool.false_ne_true hprefix
  | _ => exact iff_of_true rfl nofun

theorem ofAddress_eq_error {e : Error} (h : ofAddress a fresh = .error e) :
    e = .prefixOutOfRange a.id := by
  unfold ofAddress at h
  cases hkind : a.kind with
  | generator =>
      rw [hkind] at h
      simp only [IdGenerator.ofPrefix] at h
      split at h
      · cases h
      · cases h
        rfl
  | _ =>
      rw [hkind] at h
      cases h

theorem Regular.kind_eq (h : p.Regular a) : p.kind = a.kind := by
  cases p with
  | timeline t => exact h.1.symm
  | generator g => exact h.1.symm
  | _ => exact Eq.symm h

/-- An address of a regular payload has an empty one. -/
theorem Regular.ofAddress (h : p.Regular a) (fresh : Stamp) : ∃ q, ofAddress a fresh = .ok q := by
  unfold Payload.ofAddress
  cases p with
  | generator g =>
      obtain ⟨hkind, hprefix, hrange, -⟩ := h
      rw [hkind]
      simp only [IdGenerator.ofPrefix, ← hprefix, if_pos hrange]
      exact ⟨_, rfl⟩
  | timeline t =>
      rw [h.1]
      exact ⟨_, rfl⟩
  | attributes m =>
      rw [show a.kind = .attributes from h]
      exact ⟨_, rfl⟩
  | divergences d =>
      rw [show a.kind = .divergences from h]
      exact ⟨_, rfl⟩

/-- A saved form that is loaded into an empty payload brings the content back, and the payload
stays clean. -/
theorem load_encode (hq : q.content = .empty a) (hq' : q.Regular a) (hp : p.Regular a)
    (hfits : p.content.Fits) (own : Ownership) :
    ∃ q', q.load own p.encode = .ok q' ∧ q'.content = p.content ∧ q'.Regular a ∧
      q'.tracker = q.tracker := by
  unfold Content.empty at hq
  cases p with
  | attributes n =>
      have hkind : a.kind = .attributes := hp
      rw [hkind] at hq
      cases q with
      | attributes m =>
          obtain ⟨m', hload, hvalues, htracker⟩ :=
            AttributeMap.load_encode (Content.attributes.inj hq) hfits own
          refine ⟨.attributes m', ?_, congrArg Content.attributes hvalues, hkind, htracker⟩
          exact congrArg (Except.map attributes) hload
      | _ => cases hq
  | divergences n =>
      have hkind : a.kind = .divergences := hp
      rw [hkind] at hq
      cases q with
      | divergences d =>
          obtain ⟨hentries, hcode⟩ := Content.divergences.inj hq
          obtain ⟨d', hload, hentries', hcode', htracker⟩ :=
            Divergences.load_encode (n := n) hentries hcode
          refine ⟨.divergences d', ?_, ?_, hkind, htracker⟩
          · exact congrArg (Except.map divergences) hload
          · change Content.divergences d'.entries d'.code = .divergences n.entries n.code
            rw [hentries', hcode']
      | _ => cases hq
  | timeline n =>
      obtain ⟨hkind, hgrown⟩ := hp
      rw [hkind] at hq
      cases q with
      | timeline t =>
          have hkeys : t.tree.keys = [] := Content.timeline.inj hq
          have htree : t.tree = {} := by
            rw [← show RowTree.ofKeys t.tree.keys = t.tree from hq'.2, hkeys]
            rfl
          have hsize : n.size ≤ Field.maxCount := by
            rw [← n.length_keys]
            exact hfits
          obtain ⟨t', hload, htree', htracker⟩ := Timeline.load_encode htree hgrown hsize
          refine ⟨.timeline t', ?_, ?_, ⟨hkind, ?_⟩, htracker⟩
          · exact congrArg (Except.map timeline) hload
          · exact congrArg (fun tree => Content.timeline tree.keys) htree'
          · exact htree' ▸ hgrown
      | _ => cases hq
  | generator n =>
      obtain ⟨hkind, hprefix, hrange, hseed⟩ := hp
      rw [hkind] at hq
      cases q with
      | generator g =>
          obtain ⟨hprefix', hzero⟩ := Content.generator.inj hq
          obtain ⟨g', hload, hg', hseed', htracker⟩ := IdGenerator.load_encode hzero hseed
          have hsame : g'.idPrefix = n.idPrefix := by rw [hg', hprefix', hprefix]
          refine ⟨.generator g', ?_, ?_, ⟨hkind, hg'.trans hprefix', hsame ▸ hrange, ?_⟩, htracker⟩
          · exact congrArg (Except.map generator) hload
          · change Content.generator g'.idPrefix g'.seed = .generator n.idPrefix n.seed
            rw [hsame, hseed']
          · rw [hseed']
            exact hseed
      | _ => cases hq

end Payload

end ChunkCache
