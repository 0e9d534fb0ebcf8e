import ChunkCache.Proofs.Loading

namespace ChunkCache

namespace Timeline

/-- The revision counts a step, or it is left with the rows. -/
def Counts (t t' : Timeline) : Prop :=
  t'.revision = t.revision ∧ t'.tree = t.tree ∨ t'.revision = t.revision + 1

variable {t t' : Timeline} {key : Int64} {keys : List Int64}

theorem counts_insertSilently (h : t.tree.Sound) (key : Int64) :
    t.Counts (t.insertSilently key).1 := by
  unfold insertSilently
  dsimp only
  split
  · exact .inr rfl
  · exact .inl ⟨rfl, tree_place_of_not_new h (Bool.eq_false_iff.2 ‹_›)⟩

theorem counts_insert (h : t.tree.Sound) (key : Int64) : t.Counts (t.insert key).1 := by
  have hcounts := counts_insertSilently h key
  unfold insert
  dsimp only
  split
  · exact hcounts
  · exact hcounts

theorem counts_truncate (t : Timeline) (bound : Int64) : t.Counts (t.truncate bound) :=
  .inr (congrArg (· + 1) (revision_placeAll _ _))

theorem counts_merge (h : t.tree.Grown) (keys : List Int64) : t.Counts (t.merge keys) := by
  by_cases hnews : t.News keys
  · exact .inr ((merged_merge h keys).changed hnews).1
  · have hsubset := subset_of_not_news h.sound hnews
    exact .inl ⟨((merged_merge h keys).unchanged hnews).1, (merge_of_subset h.sound hsubset).1⟩

theorem counts_load {buffer : Bytes} (h : t.tree.Grown) (hload : t.load buffer = .ok t') :
    t.Counts t' := by
  rcases load_cases hload with ⟨-, rfl⟩ | ⟨keys, -, rfl⟩
  · exact .inl ⟨rfl, rfl⟩
  · exact counts_merge h keys

end Timeline

namespace Divergences

/-- The revision counts a step, or it is left with the entries. -/
def Counts (d d' : Divergences) : Prop :=
  d'.revision = d.revision ∧ d'.entries = d.entries ∨ d'.revision = d.revision + 1

variable {d d' : Divergences}

theorem counts_put (d : Divergences) (world time : Int64) : d.Counts (d.put world time) := by
  unfold put
  split
  · exact .inl ⟨rfl, rfl⟩
  · exact .inr rfl

theorem setCode_same (d : Divergences) (code : Int64) :
    (d.setCode code).revision = d.revision ∧ (d.setCode code).entries = d.entries := by
  unfold setCode
  split
  · exact ⟨rfl, rfl⟩
  · exact ⟨rfl, rfl⟩

theorem counts_merge (d : Divergences) (code : Int64) (pairs : List (Int64 × Int64)) :
    d.Counts (d.merge code pairs) := by
  by_cases hnews : d.News code pairs
  · exact .inr ((d.merged_merge code pairs).changed hnews).1
  · have hkept := Bool.eq_false_iff.2 (mt news_iff.2 hnews)
    exact .inl ⟨((d.merged_merge code pairs).unchanged hnews).1,
      putAll_of_not_news (Bool.or_eq_false_iff.1 hkept).2⟩

theorem counts_load {buffer : Bytes} (hload : d.load buffer = .ok d') : d.Counts d' := by
  rcases load_cases hload with ⟨-, rfl⟩ | ⟨code, pairs, -, rfl⟩
  · exact .inl ⟨rfl, rfl⟩
  · exact d.counts_merge code pairs

end Divergences

namespace Payload

/-- The revision of a timeline or of divergences; other payloads have none. -/
def revision? : Payload → Option UInt64
  | timeline t => some t.revision
  | divergences d => some d.revision
  | _ => none

/-- What revisions are about. -/
inductive Subject where
  /-- The keys of a timeline in the order of their rows. -/
  | keys (keys : List Int64)
  /-- The times of the worlds that diverged. -/
  | entries (entries : SortedMap Int64 Int64)

/-- The part of a payload whose changes its revision counts. -/
def subject? : Payload → Option Subject
  | timeline t => some (.keys t.tree.keys)
  | divergences d => some (.entries d.entries)
  | _ => none

/-- The revision counts a step, or it is left with what it is about. -/
def Counts (p p' : Payload) : Prop :=
  p'.revision? = p.revision? ∧ p'.subject? = p.subject? ∨
    p'.revision? = p.revision?.map (· + 1)

variable {a : Address} {p p' : Payload}

theorem counts_timeline {t t' : Timeline} (h : t.Counts t') :
    (timeline t).Counts (timeline t') := by
  rcases h with ⟨hrevision, htree⟩ | hmoved
  · exact .inl ⟨congrArg some hrevision,
      congrArg (fun tree : RowTree => some (Subject.keys tree.keys)) htree⟩
  · exact .inr (congrArg some hmoved)

theorem counts_divergences {d d' : Divergences} (h : d.Counts d') :
    (divergences d).Counts (divergences d') := by
  rcases h with ⟨hrevision, hentries⟩ | hmoved
  · exact .inl ⟨congrArg some hrevision, congrArg (some ∘ Subject.entries) hentries⟩
  · exact .inr (congrArg some hmoved)

/-- Payloads of the other kinds have nothing to count. -/
theorem counts_of_kind (hkind : p'.kind = p.kind) (h : p.revision? = none) : p.Counts p' := by
  cases p with
  | timeline t => cases h
  | divergences d => cases h
  | attributes m =>
      cases p' with
      | attributes m' => exact .inl ⟨rfl, rfl⟩
      | _ => cases hkind
  | generator g =>
      cases p' with
      | generator g' => exact .inl ⟨rfl, rfl⟩
      | _ => cases hkind

end Payload

namespace Operation

variable {a : Address} {p : Payload} {op : Operation}

theorem counts_on_timeline {t : Timeline} (h : t.tree.Grown) (op : Operation) :
    (Payload.timeline t).Counts (op.on (.timeline t)) := by
  cases op with
  | save => exact .inl ⟨rfl, rfl⟩
  | touch => exact .inl ⟨rfl, rfl⟩
  | insertSilently key =>
      exact Payload.counts_timeline (Timeline.counts_insertSilently h.sound key)
  | mutate m own =>
      cases m with
      | insert key => exact Payload.counts_timeline (Timeline.counts_insert h.sound key)
      | truncate bound => exact Payload.counts_timeline (t.counts_truncate bound)
      | _ => exact .inl ⟨rfl, rfl⟩
  | reserve rows =>
      rw [on]
      split
      · rename_i hreserve
        rw [Timeline.eq_makeRoom_of_reserve hreserve]
        exact .inl ⟨rfl, rfl⟩
      · exact .inl ⟨rfl, rfl⟩
  | load own buffer =>
      rw [on]
      split
      · rename_i hload
        obtain ⟨t', ht, rfl⟩ := Field.exists_of_map_eq_ok hload
        exact Payload.counts_timeline (Timeline.counts_load h ht)
      · exact .inl ⟨rfl, rfl⟩

theorem counts_on_divergences (d : Divergences) (op : Operation) :
    (Payload.divergences d).Counts (op.on (.divergences d)) := by
  cases op with
  | mutate m own =>
      cases m with
      | put world time => exact Payload.counts_divergences (d.counts_put world time)
      | setCode code => exact Payload.counts_divergences (.inl (d.setCode_same code))
      | _ => exact .inl ⟨rfl, rfl⟩
  | load own buffer =>
      rw [on]
      split
      · rename_i hload
        obtain ⟨d', hd, rfl⟩ := Field.exists_of_map_eq_ok hload
        exact Payload.counts_divergences (Divergences.counts_load hd)
      · exact .inl ⟨rfl, rfl⟩
  | _ => exact .inl ⟨rfl, rfl⟩

/-- Every operation is counted by the revision, or leaves what the revision is about. -/
theorem counts_on (h : p.Regular a) (op : Operation) : p.Counts (op.on p) := by
  have hkind : (op.on p).kind = p.kind := by rw [(regular_on h op).kind_eq, h.kind_eq]
  cases p with
  | timeline t => exact counts_on_timeline h.2 op
  | divergences d => exact counts_on_divergences d op
  | attributes m => exact Payload.counts_of_kind hkind rfl
  | generator g => exact Payload.counts_of_kind hkind rfl

/-- The operations on timelines and divergences that leave the revision: what they would bring is
there already, or it is not what the revision is about, or they are refused. -/
inductive Steady : Operation → Payload → Prop
  | insert {t : Timeline} {key : Int64} (own : Ownership) (h : t.contains key = true) :
    Steady (.mutate (.insert key) own) (.timeline t)
  | insertSilently {t : Timeline} {key : Int64} (h : t.contains key = true) :
    Steady (.insertSilently key) (.timeline t)
  | put {d : Divergences} {world time : Int64} (own : Ownership) (h : d.get? world = some time) :
    Steady (.mutate (.put world time) own) (.divergences d)
  | setCode (code : Int64) (own : Ownership) (d : Divergences) :
    Steady (.mutate (.setCode code) own) (.divergences d)
  | reserve (rows : Nat) (p : Payload) : Steady (.reserve rows) p
  | save (p : Payload) : Steady .save p
  | rejected {own : Ownership} {buffer : Bytes} {p : Payload} {e : Error}
    (h : p.load own buffer = .error e) : Steady (.load own buffer) p
  | loadKeys {t : Timeline} {keys : List Int64} (own : Ownership) {buffer : Bytes}
    (hspells : Timeline.Spells buffer keys) (h : ∀ key ∈ keys, t.contains key = true) :
    Steady (.load own buffer) (.timeline t)
  | loadPairs {d : Divergences} {code : Int64} {pairs : List (Int64 × Int64)} (own : Ownership)
    {buffer : Bytes} (hspells : Divergences.Spells buffer code pairs)
    (hcode : code = absentLong ∨ code = d.code) (h : ∀ e ∈ pairs, d.get? e.1 = some e.2) :
    Steady (.load own buffer) (.divergences d)

theorem revision_on_loadKeys {t : Timeline} {keys : List Int64} {own : Ownership} {buffer : Bytes}
    (ht : t.tree.Grown) (hspells : Timeline.Spells buffer keys)
    (h : ∀ key ∈ keys, t.contains key = true) :
    ((load own buffer).on (.timeline t)).revision? = some t.revision := by
  obtain ⟨t', hload, hmerged, -⟩ := Timeline.load_of_spells hspells ht
  have hnews : ¬t.News keys := by
    rw [Timeline.news_iff]
    rintro ⟨key, hkey, hnew⟩
    exact hnew (h key hkey)
  rw [on, Payload.load, hload]
  exact congrArg some (hmerged.unchanged hnews).1

theorem revision_on_loadPairs {d : Divergences} {code : Int64} {pairs : List (Int64 × Int64)}
    {own : Ownership} {buffer : Bytes} (hspells : Divergences.Spells buffer code pairs)
    (hcode : code = absentLong ∨ code = d.code) (h : ∀ e ∈ pairs, d.get? e.1 = some e.2) :
    ((load own buffer).on (.divergences d)).revision? = some d.revision := by
  obtain ⟨d', hload, hmerged⟩ := Divergences.load_of_spells hspells d
  have hnews : ¬d.News code pairs := by
    rw [Divergences.news_iff, Divergences.putAll_of_present h, Bool.or_false, Bool.and_eq_true,
      decide_eq_true_eq, decide_eq_true_eq]
    rintro ⟨habsent, hother⟩
    exact hcode.elim habsent hother
  rw [on, Payload.load, hload]
  exact congrArg some (hmerged.unchanged hnews).1

theorem Steady.revision_on (hp : p.Regular a) (h : op.Steady p) :
    (op.on p).revision? = p.revision? := by
  cases h with
  | @insert t key own hkey =>
      have hmem := hp.2.sound.contains_iff.1 hkey
      change some (t.insert key).1.revision = some t.revision
      rw [Timeline.insert_of_tree (hp.2.sound.insert_of_mem hmem)]
      rfl
  | @insertSilently t key hkey =>
      have hnew := Timeline.place_of_mem hp.2.sound (hp.2.sound.contains_iff.1 hkey)
      change some (t.insertSilently key).1.revision = some t.revision
      unfold Timeline.insertSilently
      dsimp only
      rw [hnew]
      rfl
  | @put d world time own hget =>
      change some (d.put world time).revision = some d.revision
      rw [Divergences.put, if_pos hget]
  | setCode code own d => exact congrArg some (d.setCode_same code).1
  | reserve rows p =>
      cases p with
      | timeline t =>
          rw [on]
          split
          · rename_i hreserve
            rw [Timeline.eq_makeRoom_of_reserve hreserve]
            rfl
          · rfl
      | _ => rfl
  | save p => cases p <;> rfl
  | rejected hload => rw [on, hload]
  | loadKeys own hspells hkeys => exact revision_on_loadKeys hp.2 hspells hkeys
  | loadPairs own hspells hcode hpairs => exact revision_on_loadPairs hspells hcode hpairs

end Operation

namespace Payload

variable {a : Address} {p : Payload}

/-- A run moves the revision by the number of its steps that are counted; where there is none, what
the revision is about is left. -/
theorem Regular.counts_operate (h : p.Regular a) (ops : List Operation) :
    ∃ n ≤ ops.length, (p.operate ops).revision? = p.revision?.map (· + UInt64.ofNat n) ∧
      (n = 0 → (p.operate ops).subject? = p.subject?) := by
  induction ops generalizing p with
  | nil =>
      refine ⟨0, Nat.le_refl 0, ?_, fun _ => rfl⟩
      change p.revision? = _
      cases p.revision? with
      | none => rfl
      | some r => exact congrArg some (UInt64.add_zero r).symm
  | cons op ops ih =>
      obtain ⟨n, hle, hrevision, hsubject⟩ := ih (Operation.regular_on h op)
      change ((op.on p).operate ops).revision? = _ at hrevision
      rcases Operation.counts_on h op with ⟨hleft, hkept⟩ | hmoved
      · refine ⟨n, Nat.le_succ_of_le hle, ?_, fun hn => (hsubject hn).trans hkept⟩
        exact hrevision.trans (congrArg _ hleft)
      · refine ⟨n + 1, Nat.succ_le_succ hle, ?_, fun hn => absurd hn n.succ_ne_zero⟩
        refine hrevision.trans ?_
        rw [hmoved, Option.map_map]
        congr 1
        funext r
        change r + 1 + UInt64.ofNat n = r + UInt64.ofNat (n + 1)
        rw [UInt64.ofNat_add, UInt64.add_assoc, UInt64.add_comm 1]
        rfl

theorem operate_append (p : Payload) (ops ops' : List Operation) :
    p.operate (ops ++ ops') = (p.operate ops).operate ops' := List.foldl_append ..

/-- Less than a full turn brings a counter back only if nothing was counted. -/
theorem eq_zero_of_add_eq_self {r : UInt64} {n : Nat} (hn : n < 2 ^ 64)
    (h : r + UInt64.ofNat n = r) : n = 0 := by
  have hr := r.toNat_lt
  have hnat := congrArg UInt64.toNat h
  rw [UInt64.toNat_add, UInt64.toNat_ofNat'] at hnat
  omega

/-- A run whose ends have the same revision left what the revision is about all the way. -/
theorem Regular.subject_operate (h : p.Regular a) {between after : List Operation} {r : UInt64}
    (hlength : between.length + after.length < 2 ^ 64) (hbefore : p.revision? = some r)
    (hafter : (p.operate (between ++ after)).revision? = some r) :
    (p.operate between).subject? = p.subject? ∧
      (p.operate (between ++ after)).subject? = p.subject? := by
  obtain ⟨n, hn, hrevision, hsubject⟩ := h.counts_operate between
  obtain ⟨m, hm, hrevision', hsubject'⟩ := (h.operate between).counts_operate after
  rw [operate_append] at hafter ⊢
  rw [hrevision', hrevision, hbefore] at hafter
  have hturn : r + UInt64.ofNat (n + m) = r := by
    rw [UInt64.ofNat_add, ← UInt64.add_assoc]
    exact Option.some.inj hafter
  -- the run is shorter than a turn, so no step of either part was counted
  have hzero := eq_zero_of_add_eq_self (by omega) hturn
  have hkept := hsubject (by omega)
  exact ⟨hkept, (hsubject' (by omega)).trans hkept⟩

/-- Along every run of less than 2^64 operations, a timeline that has the same revision at two
moments has the same keys at both and at every moment between, and divergences have the same
entries. An operation that brings nothing new, that only prepares or saves, or that is refused
leaves the revision. -/
theorem Arises.revision_faithful (h : Arises a p) (ops : List Operation)
    (hlength : ops.length < 2 ^ 64) :
    (∀ i j k r, i ≤ j → j ≤ k → (p.operate (ops.take i)).revision? = some r →
      (p.operate (ops.take k)).revision? = some r →
        (p.operate (ops.take j)).subject? = (p.operate (ops.take i)).subject? ∧
        (p.operate (ops.take k)).subject? = (p.operate (ops.take i)).subject?) ∧
    ∀ before op after, ops = before ++ op :: after → op.Steady (p.operate before) →
      (op.on (p.operate before)).revision? = (p.operate before).revision? := by
  constructor
  · intro i j k r hij hjk hbefore hafter
    -- the run up to `k` is cut at the moments `i` and `j`
    obtain ⟨between, hbetween⟩ := List.take_prefix_take_left (l := ops) hij
    obtain ⟨rest, hrest⟩ := List.take_prefix_take_left (l := ops) hjk
    have hsplit : ops.take k = ops.take i ++ (between ++ rest) := by
      rw [← hrest, ← hbetween, List.append_assoc]
    have hshort : between.length + rest.length < 2 ^ 64 := by
      have hlengths := congrArg List.length hsplit
      rw [List.length_take, List.length_append, List.length_append] at hlengths
      omega
    rw [hsplit, operate_append] at hafter
    rw [hsplit, ← hbetween, operate_append, operate_append]
    exact (h.regular.operate _).subject_operate hshort hbefore hafter
  · intro before op after _ hsteady
    exact hsteady.revision_on (h.regular.operate before)

/-- An insertion, and then a save, a preparation and the same insertion. -/
def settled : List Operation :=
  [ .mutate (.insert 3) (.unknown 0), .save, .reserve 40, .mutate (.insert 3) (.unknown 1) ]

/-- Only the first step is counted, so the keys stay from there on. -/
theorem Arises.revision_faithful_settled :
    let p := timeline .empty
    let moment (n : Nat) := p.operate (settled.take n)
    Arises (Address.timeline 0 1) p ∧ settled.length < 2 ^ 64 ∧
      (moment 1).revision? = some 1 ∧ (moment 4).revision? = some 1 ∧
      (moment 2).subject? = (moment 1).subject? ∧ (moment 4).subject? = (moment 1).subject? ∧
      (Operation.on (.mutate (.insert 3) (.unknown 1)) (moment 3)).revision? =
        (moment 3).revision? := by
  intro p moment
  have harises : Arises (Address.timeline 0 1) p := by
    have hempty : ofAddress (Address.timeline 0 1) 0 = .ok (timeline .empty) := rfl
    exact .empty hempty
  have hlength : settled.length < 2 ^ 64 := by decide
  have hbefore : (moment 1).revision? = some 1 := by decide +kernel
  have hafter : (moment 4).revision? = some 1 := by decide +kernel
  obtain ⟨hfaithful, hsteady⟩ := harises.revision_faithful settled hlength
  obtain ⟨hbetween, hend⟩ := hfaithful 1 2 4 1 (by decide) (by decide) hbefore hafter
  refine ⟨harises, hlength, hbefore, hafter, hbetween, hend, ?_⟩
  apply hsteady (settled.take 3) _ [] rfl
  exact .insert _ (by decide +kernel)

end Payload

end ChunkCache
