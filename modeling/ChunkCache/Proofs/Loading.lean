import ChunkCache.Proofs.Merge
import ChunkCache.Proofs.Tracking

namespace ChunkCache

open ChunkCache.Field

namespace AttributeMap

/-- What `m` is once the records are merged into it. -/
structure Merged (m : AttributeMap) (records : List (Int64 × Value)) (m' : AttributeMap) :
    Prop where
  get?_eq : ∀ key, m'.get? key = (records.reverse.lookup key).or (m.get? key)
  tracker_eq :
    m'.tracker = if m.isEmpty || records.isEmpty then m.tracker else m.tracker.touch

variable {m m' m'' : AttributeMap} {own : Ownership} {buffer : Bytes}
variable {records : List (Int64 × Value)}

theorem get?_eq_values (m : AttributeMap) (key : Int64) : m.get? key = m.values.get? key := by
  rw [values, SortedMap.get?_mapValues]
  rfl

theorem merged_merge (m : AttributeMap) (own : Ownership) (records : List (Int64 × Value)) :
    m.Merged records (m.merge own records) where
  get?_eq key := by
    rw [get?_eq_values, values_merge, SortedMap.get?_insertMany, get?_eq_values]
  tracker_eq := by
    unfold merge
    cases records with
    | nil => rw [List.isEmpty_nil, Bool.or_true]; rfl
    | cons e records =>
        rw [List.isEmpty_cons, Bool.or_false]
        cases m.isEmpty with
        | true => rfl
        | false => rfl

theorem load_of_spells (h : Spells buffer records) (m : AttributeMap) (own : Ownership) :
    ∃ m', m.load own buffer = .ok m' ∧ m.Merged records m' := by
  refine ⟨m.merge own records, ?_, m.merged_merge own records⟩
  rw [load, decodeRecords_eq_ok_iff.2 h]
  rfl

/-- Records that were merged before bring nothing new. -/
theorem Merged.again (h : m.Merged records m') (h' : m'.Merged records m'') :
    m''.values = m'.values := by
  apply SortedMap.ext_get?
  intro key
  rw [← get?_eq_values, ← get?_eq_values, h'.get?_eq, h.get?_eq]
  cases records.reverse.lookup key <;> rfl

end AttributeMap

namespace Divergences

/-- The type code is another one than that of `d`, or some pair is not there when its turn comes:
it is compared with the last earlier pair of its world or, if there is none, with what `d` has. -/
def News (d : Divergences) (code : Int64) (pairs : List (Int64 × Int64)) : Prop :=
  code ≠ absentLong ∧ code ≠ d.code ∨
    ∃ before world time after, pairs = before ++ (world, time) :: after ∧
      (before.reverse.lookup world).or (d.get? world) ≠ some time

/-- What `d` is once a type code and pairs are merged into it. -/
structure Merged (d : Divergences) (code : Int64) (pairs : List (Int64 × Int64))
    (d' : Divergences) : Prop where
  get?_eq : ∀ world, d'.get? world = (pairs.reverse.lookup world).or (d.get? world)
  code_eq : d'.code = if code = absentLong then d.code else code
  changed : d.News code pairs → d'.revision = d.revision + 1 ∧
    d'.tracker = if d.isInitial then d.tracker else d.tracker.touch
  unchanged : ¬d.News code pairs → d'.revision = d.revision ∧ d'.tracker = d.tracker

variable {d d' d'' : Divergences} {buffer : Bytes} {code : Int64} {pairs : List (Int64 × Int64)}
variable {entries : SortedMap Int64 Int64}

theorem isNews_iff {pair : Int64 × Int64} :
    isNews entries pair = true ↔ entries.get? pair.1 ≠ some pair.2 := by
  rw [isNews, decide_eq_true_eq]

theorem putAll_fst_iff : (putAll entries pairs).1 = true ↔
    ∃ before world time after, pairs = before ++ (world, time) :: after ∧
      (entries.insertMany before).get? world ≠ some time := by
  induction pairs generalizing entries with
  | nil =>
      refine iff_of_false Bool.false_ne_true ?_
      rintro ⟨before, world, time, after, hpairs, -⟩
      exact List.append_ne_nil_of_right_ne_nil _ (List.cons_ne_nil _ _) hpairs.symm
  | cons pair pairs ih =>
      rw [putAll, Bool.or_eq_true, ih, isNews_iff]
      constructor
      · rintro (hnews | ⟨before, world, time, after, rfl, hnews⟩)
        · exact ⟨[], pair.1, pair.2, pairs, rfl, hnews⟩
        · exact ⟨pair :: before, world, time, after, rfl, hnews⟩
      · rintro ⟨before, world, time, after, hpairs, hnews⟩
        cases before with
        | nil =>
            obtain ⟨rfl, rfl⟩ := List.cons.inj hpairs
            exact .inl hnews
        | cons first before =>
            obtain ⟨rfl, rfl⟩ := List.cons.inj hpairs
            exact .inr ⟨before, world, time, after, rfl, hnews⟩

theorem news_iff : d.News code pairs ↔
    ((code ≠ absentLong && code ≠ d.code) || (putAll d.entries pairs).1) = true := by
  rw [Bool.or_eq_true, putAll_fst_iff, Bool.and_eq_true, decide_eq_true_eq, decide_eq_true_eq]
  simp only [SortedMap.get?_insertMany]
  rfl

theorem merged_merge (d : Divergences) (code : Int64) (pairs : List (Int64 × Int64)) :
    d.Merged code pairs (d.merge code pairs) where
  get?_eq world := by
    rw [get?, entries_merge, SortedMap.get?_insertMany]
    rfl
  code_eq := d.code_merge code pairs
  changed h := by
    have hchanged := news_iff.1 h
    unfold merge
    dsimp only
    rw [hchanged]
    cases d.isInitial with
    | true => exact ⟨rfl, rfl⟩
    | false => exact ⟨rfl, rfl⟩
  unchanged h := by
    have hchanged := Bool.eq_false_iff.2 (mt news_iff.2 h)
    unfold merge
    dsimp only
    rw [hchanged]
    exact ⟨rfl, rfl⟩

theorem merged_self (d : Divergences) : d.Merged absentLong [] d where
  get?_eq _ := rfl
  code_eq := rfl
  changed h := by
    rcases h with ⟨habsent, -⟩ | ⟨before, world, time, after, hpairs, -⟩
    · exact absurd rfl habsent
    · exact absurd hpairs.symm (List.append_ne_nil_of_right_ne_nil _ (List.cons_ne_nil _ _))
  unchanged _ := ⟨rfl, rfl⟩

theorem load_of_spells (h : Spells buffer code pairs) (d : Divergences) :
    ∃ d', d.load buffer = .ok d' ∧ d.Merged code pairs d' := by
  rcases load_spelled h d with hload | ⟨⟨rfl, rfl⟩, hload⟩
  · exact ⟨d.merge code pairs, hload, d.merged_merge code pairs⟩
  · exact ⟨d, hload, d.merged_self⟩

/-- A type code and pairs that were merged before bring no other ones. -/
theorem Merged.again (h : d.Merged code pairs d') (h' : d'.Merged code pairs d'') :
    d''.entries = d'.entries ∧ d''.code = d'.code := by
  constructor
  · apply SortedMap.ext_get?
    intro world
    change d''.get? world = d'.get? world
    rw [h'.get?_eq, h.get?_eq]
    cases pairs.reverse.lookup world <;> rfl
  · rw [h'.code_eq, h.code_eq]
    split <;> rfl

end Divergences

namespace Content

/-- The new keys follow, each one once. -/
theorem foldl_addKey (l keys : List Int64) :
    l.foldl addKey keys = keys ++ (l.filter (· ∉ keys)).eraseDups := by
  induction l generalizing keys with
  | nil => exact (List.append_nil keys).symm
  | cons key l ih =>
      rw [List.foldl_cons, ih, addKey]
      by_cases hkey : key ∈ keys
      · rw [if_pos hkey, List.filter_cons_of_neg (by simpa using hkey)]
      · -- once `key` is there, later occurrences of it are old ones
        have hrest : l.filter (· ∉ keys ++ [key]) =
            (l.filter (· ∉ keys)).filter fun k => !k == key := by
          rw [List.filter_filter]
          apply List.filter_congr
          intro k _
          by_cases hk : k = key <;> simp [hk]
        rw [if_neg hkey, List.filter_cons_of_pos (by simpa using hkey), List.eraseDups_cons, hrest,
          List.append_assoc]
        rfl

theorem mem_foldl_addKey {l keys : List Int64} {key : Int64} :
    key ∈ l.foldl addKey keys ↔ key ∈ keys ∨ key ∈ l := by
  rw [foldl_addKey, List.mem_append, List.mem_eraseDups, List.mem_filter, decide_eq_true_eq]
  by_cases hkey : key ∈ keys <;> simp [hkey]

end Content

namespace Timeline

/-- Some key is not there when its turn comes. -/
def News (t : Timeline) (keys : List Int64) : Prop :=
  ∃ before key after, keys = before ++ key :: after ∧ key ∉ before ∧ ¬t.contains key = true

/-- What `t` is once keys are merged into it. The rows of the new ones follow in the order in which
they come first. -/
structure Merged (t : Timeline) (keys : List Int64) (t' : Timeline) : Prop where
  contains_iff : ∀ key, t'.contains key = true ↔ t.contains key = true ∨ key ∈ keys
  rows_eq : t'.tree.keys = t.tree.keys ++ (keys.filter fun key => !t.contains key).eraseDups
  changed : t.News keys → t'.revision = t.revision + 1 ∧
    t'.tracker = if t.isEmpty then t.tracker else t.tracker.touch
  unchanged : ¬t.News keys → t'.revision = t.revision ∧ t'.tracker = t.tracker

variable {t t' t'' u v : Timeline} {buffer other : Bytes} {keys keys' : List Int64}

theorem news_iff : t.News keys ↔ ∃ key ∈ keys, ¬t.contains key = true := by
  constructor
  · rintro ⟨before, key, after, rfl, -, hnew⟩
    exact ⟨key, List.mem_append_right _ List.mem_cons_self, hnew⟩
  · rintro ⟨key, hkey, hnew⟩
    obtain ⟨before, after, rfl, hfirst⟩ := List.eq_append_cons_of_mem hkey
    exact ⟨before, key, after, rfl, hfirst, hnew⟩

theorem subset_of_not_news (h : t.tree.Sound) (hnews : ¬t.News keys) : keys ⊆ t.tree.keys := by
  intro key hkey
  by_contra habsent
  apply hnews
  exact news_iff.2 ⟨key, hkey, mt h.contains_iff.1 habsent⟩

theorem contains_eq (h : t.tree.Sound) (key : Int64) :
    t.contains key = decide (key ∈ t.tree.keys) := by
  rw [Bool.eq_iff_iff, decide_eq_true_eq]
  exact h.contains_iff

theorem keys_placeAll (h : t.tree.Grown) (keys : List Int64) :
    (t.placeAll keys).1.tree.keys = keys.foldl Content.addKey t.tree.keys := by
  rw [← h.keys_insertAll]
  exact congrArg RowTree.keys (t.tree_placeAll keys false)

theorem revision_placeAll (t : Timeline) (keys : List Int64) :
    (t.placeAll keys).1.revision = t.revision := by
  induction keys generalizing t with
  | nil => rfl
  | cons key keys ih =>
      rw [placeAll_cons]
      exact ih (t.place key).1

theorem placeAll_snd_iff (h : t.tree.Grown) : (t.placeAll keys).2 = true ↔ t.News keys := by
  constructor
  · intro hnew
    by_contra hnews
    rw [placeAll_of_subset h.sound (subset_of_not_news h.sound hnews)] at hnew
    cases hnew
  · intro hnews
    obtain ⟨key, hkey, habsent⟩ := news_iff.1 hnews
    by_contra hnew
    -- otherwise the tree is the old one, but it holds `key` now
    have htree := tree_placeAll_of_not_new h.sound (Bool.eq_false_iff.2 hnew)
    apply habsent
    apply h.sound.contains_iff.2
    rw [← htree, keys_placeAll h]
    exact Content.mem_foldl_addKey.2 (.inr hkey)

theorem merged_merge (h : t.tree.Grown) (keys : List Int64) : t.Merged keys (t.merge keys) where
  contains_iff key := by
    rw [contains, (tree_merge_grown h keys).sound.contains_iff, keys_merge h,
      Content.mem_foldl_addKey, contains, h.sound.contains_iff]
  rows_eq := by
    simp only [contains_eq h.sound]
    rw [keys_merge h, Content.foldl_addKey]
    simp only [decide_not]
  changed hnews := by
    have hroom : (t.makeRoom (t.size + keys.length)).tree.Grown := h
    have htracker := tracker_placeAll (t.makeRoom (t.size + keys.length)) keys
    have hrevision := revision_placeAll (t.makeRoom (t.size + keys.length)) keys
    have hnew := (placeAll_snd_iff hroom).2 hnews
    unfold merge
    dsimp only
    rw [hnew]
    cases t.isEmpty with
    | true => exact ⟨congrArg (· + 1) hrevision, htracker⟩
    | false => exact ⟨congrArg (· + 1) hrevision, congrArg Tracker.touch htracker⟩
  unchanged hnews := by
    have hroom : (t.makeRoom (t.size + keys.length)).tree.Grown := h
    have hnew := Bool.eq_false_iff.2 (mt (placeAll_snd_iff hroom).1 hnews)
    unfold merge
    dsimp only
    rw [hnew]
    exact ⟨revision_placeAll _ keys, tracker_placeAll _ keys⟩

theorem not_news_nil (t : Timeline) : ¬t.News [] := by
  rw [news_iff]
  rintro ⟨key, hkey, -⟩
  exact List.not_mem_nil hkey

theorem merged_self (t : Timeline) : t.Merged [] t where
  contains_iff key := by simp
  rows_eq := (List.append_nil _).symm
  changed h := absurd h t.not_news_nil
  unchanged _ := ⟨rfl, rfl⟩

theorem load_of_spells (h : Spells buffer keys) (ht : t.tree.Grown) :
    ∃ t', t.load buffer = .ok t' ∧ t.Merged keys t' ∧ t'.tree.Grown := by
  rcases load_spelled h t with hload | ⟨rfl, hload⟩
  · exact ⟨t.merge keys, hload, merged_merge ht keys, tree_merge_grown ht keys⟩
  · exact ⟨t, hload, t.merged_self, ht⟩

/-- Keys that were merged before bring no new rows. -/
theorem Merged.again (h : t.Merged keys t') (h' : t'.Merged keys t'') :
    t''.tree.keys = t'.tree.keys := by
  have hnone : keys.filter (fun key => !t'.contains key) = [] := by
    apply List.filter_eq_nil_iff.2
    intro key hkey
    rw [(h.contains_iff key).2 (.inr hkey)]
    exact Bool.false_ne_true
  rw [h'.rows_eq, hnone]
  exact List.append_nil _

/-- In which order two lists of keys are merged does not matter for the set. -/
theorem Merged.comm (h : t.Merged keys t') (hu : t'.Merged keys' u) (h' : t.Merged keys' t'')
    (hv : t''.Merged keys v) (key : Int64) : u.contains key = v.contains key := by
  rw [Bool.eq_iff_iff, hu.contains_iff, h.contains_iff, hv.contains_iff, h'.contains_iff,
    or_right_comm]

end Timeline

namespace IdGenerator

/-- What `g` is once a seed is merged into it: one that is ahead is taken over. -/
structure Merged (g : IdGenerator) (stored : Option Int64) (g' : IdGenerator) : Prop where
  prefix_eq : g'.idPrefix = g.idPrefix
  seed_eq : g'.seed = stored.elim g.seed fun seed => if g.seed < seed then seed else g.seed

variable {g g' g'' : IdGenerator} {buffer : Bytes} {stored : Option Int64}

theorem load_of_spells (h : Spells buffer stored) (g : IdGenerator) :
    ∃ g', g.load buffer = .ok g' ∧ g.Merged stored g' := by
  rcases h with ⟨rfl, rfl⟩ | ⟨seed, rfl, hbuffer⟩
  · exact ⟨g, rfl, rfl, rfl⟩
  · obtain ⟨hkept, hseed⟩ := g.seed_merge seed
    exact ⟨g.merge seed, load_of_decode (decode_eq_ok_iff.2 hbuffer) g, hkept, hseed⟩

/-- A seed that was merged before is not ahead. -/
theorem Merged.again (h : g.Merged stored g') (h' : g'.Merged stored g'') :
    g''.idPrefix = g'.idPrefix ∧ g''.seed = g'.seed := by
  refine ⟨h'.prefix_eq, ?_⟩
  rw [h'.seed_eq]
  cases stored with
  | none => rfl
  | some seed =>
      have hseed : g'.seed = if g.seed < seed then seed else g.seed := h.seed_eq
      apply if_neg
      rw [hseed]
      split
      · exact Int64.lt_irrefl
      · assumption

end IdGenerator

namespace Payload

/-- What a payload is once an accepted buffer is merged into it. -/
inductive Merged (buffer : Bytes) : Payload → Payload → Prop
  | attributes {m m' : AttributeMap} {records : List (Int64 × Value)}
    (hspells : AttributeMap.Spells buffer records) (h : m.Merged records m') :
    Merged buffer (.attributes m) (.attributes m')
  | divergences {d d' : Divergences} {code : Int64} {pairs : List (Int64 × Int64)}
    (hspells : Divergences.Spells buffer code pairs) (h : d.Merged code pairs d') :
    Merged buffer (.divergences d) (.divergences d')
  | timeline {t t' : Timeline} {keys : List Int64}
    (hspells : Timeline.Spells buffer keys) (h : t.Merged keys t') :
    Merged buffer (.timeline t) (.timeline t')
  | generator {g g' : IdGenerator} {stored : Option Int64}
    (hspells : IdGenerator.Spells buffer stored) (h : g.Merged stored g') :
    Merged buffer (.generator g) (.generator g')

variable {a : Address} {p p' : Payload} {own : Ownership} {buffer : Bytes}

/-- Every payload that loads a buffer merges what it spells, and loads it again without a change of
the content. -/
theorem Regular.load_merged (hp : p.Regular a) (h : p.load own buffer = .ok p') :
    p.Merged buffer p' ∧ ∀ own', ∃ q, p'.load own' buffer = .ok q ∧ q.content = p'.content := by
  cases p with
  | attributes m =>
      obtain ⟨m', hm, rfl⟩ := exists_of_map_eq_ok h
      obtain ⟨records, hspells⟩ := AttributeMap.exists_spells hm
      obtain ⟨_, hload, hmerged⟩ := AttributeMap.load_of_spells hspells m own
      obtain rfl := Except.ok.inj (hm.symm.trans hload)
      refine ⟨.attributes hspells hmerged, fun own' => ?_⟩
      obtain ⟨m'', hagain, hmerged'⟩ := AttributeMap.load_of_spells hspells m' own'
      exact ⟨.attributes m'', congrArg (Except.map attributes) hagain,
        congrArg Content.attributes (hmerged.again hmerged')⟩
  | divergences d =>
      obtain ⟨d', hd, rfl⟩ := exists_of_map_eq_ok h
      obtain ⟨code, pairs, hspells⟩ := Divergences.exists_spells hd
      obtain ⟨_, hload, hmerged⟩ := Divergences.load_of_spells hspells d
      obtain rfl := Except.ok.inj (hd.symm.trans hload)
      refine ⟨.divergences hspells hmerged, fun own' => ?_⟩
      obtain ⟨d'', hagain, hmerged'⟩ := Divergences.load_of_spells hspells d'
      obtain ⟨hentries, hcode⟩ := hmerged.again hmerged'
      exact ⟨.divergences d'', congrArg (Except.map divergences) hagain,
        congrArg₂ Content.divergences hentries hcode⟩
  | timeline t =>
      obtain ⟨t', ht, rfl⟩ := exists_of_map_eq_ok h
      obtain ⟨keys, hspells⟩ := Timeline.exists_spells ht
      obtain ⟨_, hload, hmerged, hgrown⟩ := Timeline.load_of_spells hspells hp.2
      obtain rfl := Except.ok.inj (ht.symm.trans hload)
      refine ⟨.timeline hspells hmerged, fun own' => ?_⟩
      obtain ⟨t'', hagain, hmerged', -⟩ := Timeline.load_of_spells hspells hgrown
      exact ⟨.timeline t'', congrArg (Except.map timeline) hagain,
        congrArg Content.timeline (hmerged.again hmerged')⟩
  | generator g =>
      obtain ⟨g', hg, rfl⟩ := exists_of_map_eq_ok h
      obtain ⟨stored, hspells⟩ := IdGenerator.exists_spells hg
      obtain ⟨_, hload, hmerged⟩ := IdGenerator.load_of_spells hspells g
      obtain rfl := Except.ok.inj (hg.symm.trans hload)
      refine ⟨.generator hspells hmerged, fun own' => ?_⟩
      obtain ⟨g'', hagain, hmerged'⟩ := IdGenerator.load_of_spells hspells g'
      obtain ⟨hid, hseed⟩ := hmerged.again hmerged'
      exact ⟨.generator g'', congrArg (Except.map generator) hagain,
        congrArg₂ Content.generator hid hseed⟩

/-- Two buffers that a timeline accepts may be loaded in either order. -/
theorem Regular.load_comm {t t' t'' : Timeline} {buffer other : Bytes}
    (ht : (timeline t).Regular a) (h : t.load buffer = .ok t') (h' : t.load other = .ok t'') :
    ∃ u v, t'.load other = .ok u ∧ t''.load buffer = .ok v ∧
      ∀ key, u.contains key = v.contains key := by
  obtain ⟨keys, hspells⟩ := Timeline.exists_spells h
  obtain ⟨keys', hspells'⟩ := Timeline.exists_spells h'
  obtain ⟨_, hload, hmerged, hgrown⟩ := Timeline.load_of_spells hspells ht.2
  obtain ⟨_, hload', hmerged', hgrown'⟩ := Timeline.load_of_spells hspells' ht.2
  obtain rfl := Except.ok.inj (h.symm.trans hload)
  obtain rfl := Except.ok.inj (h'.symm.trans hload')
  obtain ⟨u, hu, humerged, -⟩ := Timeline.load_of_spells hspells' hgrown
  obtain ⟨v, hv, hvmerged, -⟩ := Timeline.load_of_spells hspells hgrown'
  exact ⟨u, v, hu, hv, hmerged.comm humerged hmerged' hvmerged⟩

/-- Whatever a payload holds, a buffer that it accepts is merged into it: the records of attributes,
the type code and the pairs of divergences, the keys of a timeline and the seed of a generator. The
same buffer is accepted again and leaves the content, and a timeline that accepts two buffers ends
with the same set of keys in whichever order it loads them. -/
theorem Arises.load_merges (h : Arises a p) (hload : p.load own buffer = .ok p') :
    p.Merged buffer p' ∧
    (∀ own', ∃ q, p'.load own' buffer = .ok q ∧ q.content = p'.content) ∧
    ∀ t t', p = .timeline t → p' = .timeline t' → ∀ other t'', t.load other = .ok t'' →
      ∃ u v, t'.load other = .ok u ∧ t''.load buffer = .ok v ∧
        ∀ key, u.contains key = v.contains key := by
  obtain ⟨hmerged, hagain⟩ := h.regular.load_merged hload
  refine ⟨hmerged, hagain, ?_⟩
  rintro t t' rfl rfl other t'' hother
  obtain ⟨_, ht, hsame⟩ := exists_of_map_eq_ok hload
  obtain rfl := Payload.timeline.inj hsame
  exact h.regular.load_comm ht hother

/-- A saved form without a type code whose second pair takes back what the first one says. -/
def takenBack : Bytes :=
  encodeInt64 absentLong ++ Separator.part.byte ::
    Bytes.joinWith Separator.entry.byte ([(1, 2), (1, 3)].map Divergences.encodeEntry)

/-- The first pair is news and the second one is again, so the revision moves, though only by one,
and the divergences become dirty, although they are what they were. -/
theorem Arises.load_merges_takenBack :
    let d := Divergences.empty.put 1 3
    let p := (divergences d).save.2
    let p' := divergences { d with revision := 2 }
    Arises (Address.divergences 1) p ∧ p.load (.unknown 0) takenBack = .ok p' ∧
      p.Merged takenBack p' := by
  intro d p p'
  have harises : Arises (Address.divergences 1) p := by
    have hempty : ofAddress (Address.divergences 1) 0 = .ok (divergences .empty) := rfl
    exact ((Arises.empty hempty).operate (.mutate (.put 1 3) (.unknown 0))).operate .save
  have hload : p.load (.unknown 0) takenBack = .ok p' := by decide +kernel
  exact ⟨harises, hload, (harises.load_merges hload).1⟩

end Payload

end ChunkCache
