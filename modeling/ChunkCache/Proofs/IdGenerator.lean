import ChunkCache.Proofs.Merge

namespace ChunkCache.IdGenerator

/-- What callers do to a generator. -/
inductive Action where
  | take
  | save
  | load (buffer : Bytes)
  | listen (listening : Bool)

/-- A generator, the ids it has handed out, the first one first, and the text with a seed in it that
it saved or took in last. An empty text holds no seed. -/
structure History where
  generator : IdGenerator
  issued : List Int64 := []
  stored : Option Bytes := none

/-- The history after an action. One that is refused leaves it. -/
def Action.on : Action → History → History
  | take, h =>
    match h.generator.take with
    | .ok (key, g) => { h with generator := g, issued := h.issued ++ [key] }
    | .error _ => h
  | save, h => { h with generator := h.generator.save.2, stored := some h.generator.save.1 }
  | load buffer, h =>
    match h.generator.load buffer with
    | .ok g => { h with generator := g, stored := if buffer.isEmpty then h.stored else some buffer }
    | .error _ => h
  | listen listening, h =>
    let g := h.generator
    { h with generator := { g with tracker := g.tracker.listen listening } }

/-- The history after some actions, the first one first. -/
def History.run (h : History) (actions : List Action) : History :=
  actions.foldl (fun h action => action.on h) h

variable {p s s' : Int64} {g : IdGenerator} {t t' : History}

theorem toInt_seedLimit : seedLimit.toInt = 2 ^ 37 - 1 := by decide

theorem toInt_maxPrefix : maxPrefix.toInt = 2 ^ 16 - 1 := by decide

theorem toInt_eq_toNat_of_nonneg {x : Int64} (h : 0 ≤ x) : x.toInt = x.toBitVec.toNat := by
  have hnonneg := Int64.le_iff_toInt_le.1 h
  rw [Int64.toInt_zero] at hnonneg
  rw [← Int64.toInt_toBitVec, BitVec.toInt_eq_toNat_cond] at hnonneg ⊢
  split
  · rfl
  · omega

section Keys

variable (hp : 0 ≤ p ∧ p ≤ maxPrefix)

include hp

/-- The seed fills the bits below the prefix, and neither the shift nor the union overflows. -/
theorem toInt_key (hs : 0 ≤ s ∧ s ≤ seedLimit) :
    (key p s).toInt = p.toInt * 2 ^ seedBits + s.toInt := by
  have hp' := Int64.le_iff_toInt_le.1 hp.2
  have hs' := Int64.le_iff_toInt_le.1 hs.2
  rw [toInt_eq_toNat_of_nonneg hp.1, toInt_maxPrefix] at hp'
  rw [toInt_eq_toNat_of_nonneg hs.1, toInt_seedLimit] at hs'
  have hshift : ((Int64.ofNat seedBits).toBitVec.smod 64).toNat = seedBits := by decide
  have hbits : (key p s).toBitVec.toNat = p.toBitVec.toNat * 2 ^ seedBits + s.toBitVec.toNat := by
    rw [key, Int64.toBitVec_or, Int64.toBitVec_shiftLeft, BitVec.toNat_or, BitVec.shiftLeft_eq',
      hshift, BitVec.toNat_shiftLeft, Nat.mod_eq_of_lt (by rw [Nat.shiftLeft_eq, seedBits]; omega),
      ← Nat.shiftLeft_add_eq_or_of_lt (by rw [seedBits]; omega), Nat.shiftLeft_eq]
  rw [seedBits] at hbits ⊢
  rw [← Int64.toInt_toBitVec, BitVec.toInt_eq_toNat_of_lt (by omega), hbits,
    toInt_eq_toNat_of_nonneg hp.1, toInt_eq_toNat_of_nonneg hs.1]
  omega

theorem shiftRight_key (hs : 0 ≤ s ∧ s ≤ seedLimit) : key p s >>> Int64.ofNat seedBits = p := by
  have hs' := Int64.le_iff_toInt_le.1 hs.2
  have hnonneg := Int64.le_iff_toInt_le.1 hs.1
  rw [toInt_seedLimit] at hs'
  rw [Int64.toInt_zero] at hnonneg
  have hshift : ((Int64.ofNat seedBits).toBitVec.smod 64).toNat = seedBits := by decide
  rw [← Int64.toInt_inj, ← Int64.toInt_toBitVec, Int64.toBitVec_shiftRight, BitVec.sshiftRight',
    hshift, BitVec.toInt_sshiftRight, Int64.toInt_toBitVec, toInt_key hp hs,
    Int.shiftRight_eq_div_pow, seedBits]
  omega

theorem key_range (hs : 0 ≤ s ∧ s < seedLimit) : 0 ≤ key p s ∧ key p s < absentLong := by
  have hkey := toInt_key hp ⟨hs.1, Int64.le_of_lt hs.2⟩
  have hp0 := Int64.le_iff_toInt_le.1 hp.1
  have hp' := Int64.le_iff_toInt_le.1 hp.2
  have hs0 := Int64.le_iff_toInt_le.1 hs.1
  have hs' := Int64.lt_iff_toInt_lt.1 hs.2
  rw [toInt_maxPrefix] at hp'
  rw [toInt_seedLimit] at hs'
  have habsent : absentLong.toInt = 2 ^ 53 - 1 := by decide
  rw [Int64.le_iff_toInt_le, Int64.lt_iff_toInt_lt, hkey, habsent, seedBits]
  rw [Int64.toInt_zero] at hp0 hs0 ⊢
  omega

theorem key_lt_key (hs : 0 ≤ s) (hlt : s < s') (hs' : s' ≤ seedLimit) : key p s < key p s' := by
  have hlimit : s ≤ seedLimit := Int64.le_of_lt (Int64.lt_of_lt_of_le hlt hs')
  have hs0' : 0 ≤ s' := Int64.le_of_lt (Int64.lt_of_le_of_lt hs hlt)
  rw [Int64.lt_iff_toInt_lt, toInt_key hp ⟨hs, hlimit⟩, toInt_key hp ⟨hs0', hs'⟩]
  have hlt' := Int64.lt_iff_toInt_lt.1 hlt
  omega

end Keys

theorem lt_succ_of_lt_seedLimit (hs : 0 ≤ s ∧ s < seedLimit) : s < s + 1 ∧ s + 1 ≤ seedLimit := by
  have hs0 := Int64.le_iff_toInt_le.1 hs.1
  have hs' := Int64.lt_iff_toInt_lt.1 hs.2
  rw [Int64.toInt_zero] at hs0
  rw [toInt_seedLimit] at hs'
  have hnext : (s + 1).toInt = s.toInt + 1 := by
    rw [Int64.toInt_add, Int64.toInt_one]
    exact Int.bmod_eq_of_le (by omega) (by omega)
  rw [Int64.lt_iff_toInt_lt, Int64.le_iff_toInt_le, hnext, toInt_seedLimit]
  omega

theorem le_seed_merge (g : IdGenerator) (stored : Int64) :
    g.seed ≤ (g.merge stored).seed ∧ stored ≤ (g.merge stored).seed := by
  rw [(g.seed_merge stored).2]
  split
  · exact ⟨Int64.le_of_lt ‹_›, Int64.le_refl _⟩
  · exact ⟨Int64.le_refl _, Int64.not_lt.1 ‹_›⟩

/-- A generator that is clean after a load has the seed that it loaded. -/
theorem seed_merge_of_clean {stored : Int64} (hclean : (g.merge stored).isDirty = false) :
    (g.merge stored).seed = stored := by
  unfold merge at hclean ⊢
  split
  · rfl
  split
  · rw [if_neg ‹_›, if_pos ‹_›, isDirty, Tracker.dirty_touch] at hclean
    cases hclean
  · exact Int64.le_antisymm (Int64.not_lt.1 ‹_›) (Int64.not_lt.1 ‹_›)

namespace History

/-- The history after a fresh id. -/
def taken (t : History) : History :=
  let g := t.generator
  { t with
    generator := { g with seed := g.seed + 1, tracker := g.tracker.touch }
    issued := t.issued ++ [key g.idPrefix g.seed] }

def saved (t : History) : History :=
  { t with generator := t.generator.save.2, stored := some t.generator.save.1 }

/-- The history after a load of a text that holds a seed. -/
def merged (t : History) (buffer : Bytes) (stored : Int64) : History :=
  { t with generator := t.generator.merge stored, stored := some buffer }

def heard (t : History) (listening : Bool) : History :=
  let g := t.generator
  { t with generator := { g with tracker := g.tracker.listen listening } }

theorem on_cases (action : Action) (t : History) :
    action.on t = t ∨
    (t.generator.seed < seedLimit ∧ action.on t = t.taken) ∨
    action.on t = t.saved ∨
    (∃ buffer stored, decode buffer = .ok stored ∧ action.on t = t.merged buffer stored) ∨
    ∃ listening, action.on t = t.heard listening := by
  cases action with
  | save => exact .inr (.inr (.inl rfl))
  | listen listening => exact .inr (.inr (.inr (.inr ⟨listening, rfl⟩)))
  | take =>
      rw [Action.on, take]
      by_cases hfull : seedLimit ≤ t.generator.seed
      · rw [if_pos hfull]
        exact .inl rfl
      · rw [if_neg hfull]
        exact .inr (.inl ⟨Int64.not_le.1 hfull, rfl⟩)
  | load buffer =>
      rw [Action.on, load]
      by_cases hempty : buffer.isEmpty = true
      · rw [if_pos hempty]
        simp only [hempty, if_true, true_or]
      · rw [if_neg hempty]
        cases hread : decode buffer with
        | error e => exact .inl rfl
        | ok stored =>
            refine .inr (.inr (.inr (.inl ⟨buffer, stored, hread, ?_⟩)))
            simp only [Except.map, hempty]
            rfl

/-- A generator of the prefix `p` with a seed above those of all the ids it has handed out. While it
is clean, its seed is the stored one. -/
structure Sound (p : Int64) (h : History) : Prop where
  idPrefix : h.generator.idPrefix = p
  idPrefix_range : 0 ≤ p ∧ p ≤ maxPrefix
  seed_range : 0 ≤ h.generator.seed ∧ h.generator.seed ≤ seedLimit
  issued : ∀ k ∈ h.issued, ∃ s, (0 ≤ s ∧ s < h.generator.seed) ∧ k = key p s
  increasing : h.issued.Pairwise (· < ·)
  stored : h.generator.isDirty = false →
    match h.stored with
    | none => h.generator.seed = 0
    | some buffer => decode buffer = .ok h.generator.seed

/-- The history after earlier ids. -/
def after (earlier : List Int64) (h : History) : History :=
  { h with issued := earlier ++ h.issued }

theorem on_after (earlier : List Int64) (action : Action) (h : History) :
    action.on (h.after earlier) = (action.on h).after earlier := by
  cases action with
  | save => rfl
  | listen listening => rfl
  | take =>
      simp only [Action.on, after]
      split
      · rw [List.append_assoc]
      · rfl
  | load buffer =>
      simp only [Action.on, after]
      split
      · rfl
      · rfl

theorem run_after (earlier : List Int64) (h : History) (actions : List Action) :
    (h.after earlier).run actions = (h.run actions).after earlier := by
  induction actions generalizing h with
  | nil => rfl
  | cons action actions ih =>
      change run (action.on (h.after earlier)) actions = _
      rw [on_after, ih]
      rfl

namespace Sound

theorem opened (hg : ofPrefix p = .ok g) : Sound p { generator := g } := by
  unfold ofPrefix at hg
  split at hg
  case isFalse => cases hg
  cases hg
  have hzero : (0 : Int64) ≤ 0 ∧ 0 ≤ seedLimit := by decide
  exact ⟨rfl, ‹_›, hzero, nofun, .nil, fun _ => rfl⟩

theorem lt_key (h : t.Sound p) {k : Int64} (hk : k ∈ t.issued) (hs : t.generator.seed ≤ s)
    (hlimit : s ≤ seedLimit) : k < key p s := by
  obtain ⟨s', ⟨hnonneg, hlt⟩, rfl⟩ := h.issued k hk
  exact key_lt_key h.idPrefix_range hnonneg (Int64.lt_of_lt_of_le hlt hs) hlimit

theorem take (h : t.Sound p) (hlt : t.generator.seed < seedLimit) : t.taken.Sound p := by
  obtain ⟨hnext, hlimit⟩ := lt_succ_of_lt_seedLimit ⟨h.seed_range.1, hlt⟩
  refine ⟨h.idPrefix, h.idPrefix_range,
    ⟨Int64.le_trans h.seed_range.1 (Int64.le_of_lt hnext), hlimit⟩, fun k hk => ?_, ?_,
    fun hclean => ?_⟩
  · rcases List.mem_append.1 hk with hk | hk
    · obtain ⟨s, ⟨hnonneg, hs⟩, rfl⟩ := h.issued k hk
      exact ⟨s, ⟨hnonneg, Int64.lt_trans hs hnext⟩, rfl⟩
    · exact ⟨_, ⟨h.seed_range.1, hnext⟩, by rw [List.mem_singleton.1 hk, h.idPrefix]⟩
  · refine List.pairwise_append.2 ⟨h.increasing, List.pairwise_singleton _ _, fun k hk k' hk' => ?_⟩
    rw [List.mem_singleton.1 hk', h.idPrefix]
    exact h.lt_key hk (Int64.le_refl _) h.seed_range.2
  · rw [isDirty, taken, Tracker.dirty_touch] at hclean
    cases hclean

theorem save (h : t.Sound p) : t.saved.Sound p :=
  ⟨h.idPrefix, h.idPrefix_range, h.seed_range, h.issued, h.increasing,
    fun _ => decode_encode h.seed_range⟩

theorem merge (h : t.Sound p) {buffer : Bytes} {stored : Int64}
    (hread : decode buffer = .ok stored) : (t.merged buffer stored).Sound p := by
  obtain ⟨hnumber, hseed⟩ := t.generator.seed_merge stored
  obtain ⟨hle, -⟩ := le_seed_merge t.generator stored
  refine ⟨hnumber.trans h.idPrefix, h.idPrefix_range, ⟨Int64.le_trans h.seed_range.1 hle, ?_⟩,
    fun k hk => ?_, h.increasing, fun hclean => ?_⟩
  · change (t.generator.merge stored).seed ≤ seedLimit
    rw [hseed]
    split
    · exact (decode_eq_ok_iff.1 hread).1.2
    · exact h.seed_range.2
  · obtain ⟨s, ⟨hnonneg, hs⟩, rfl⟩ := h.issued k hk
    exact ⟨s, ⟨hnonneg, Int64.lt_of_lt_of_le hs hle⟩, rfl⟩
  · change decode buffer = .ok (t.generator.merge stored).seed
    rw [seed_merge_of_clean hclean, hread]

theorem on (h : t.Sound p) (action : Action) : (action.on t).Sound p := by
  rcases on_cases action t with hon | ⟨hlt, hon⟩ | hon | ⟨buffer, stored, hread, hon⟩ |
    ⟨listening, hon⟩ <;> rw [hon]
  · exact h
  · exact h.take hlt
  · exact h.save
  · exact h.merge hread
  · exact ⟨h.idPrefix, h.idPrefix_range, h.seed_range, h.issued, h.increasing, h.stored⟩

theorem run (h : t.Sound p) (actions : List Action) : (t.run actions).Sound p := by
  induction actions generalizing t with
  | nil => exact h
  | cons action actions ih => exact ih (h.on action)

/-- No action moves the seed back. -/
theorem seed_le_on (h : t.Sound p) (action : Action) :
    t.generator.seed ≤ (action.on t).generator.seed := by
  rcases on_cases action t with hon | ⟨hlt, hon⟩ | hon | ⟨buffer, stored, hread, hon⟩ |
    ⟨listening, hon⟩ <;> rw [hon]
  · exact Int64.le_refl _
  · exact Int64.le_of_lt (lt_succ_of_lt_seedLimit ⟨h.seed_range.1, hlt⟩).1
  · exact Int64.le_refl _
  · exact (le_seed_merge t.generator stored).1
  · exact Int64.le_refl _

theorem seed_le_run (h : t.Sound p) (actions : List Action) :
    t.generator.seed ≤ (t.run actions).generator.seed := by
  induction actions generalizing t with
  | nil => exact Int64.le_refl _
  | cons action actions ih => exact Int64.le_trans (h.seed_le_on action) (ih (h.on action))

/-- Once the seeds are used up, nothing is issued any more. -/
theorem on_exhausted (h : t.Sound p) (hfull : seedLimit ≤ t.generator.seed) (action : Action) :
    (action.on t).issued = t.issued ∧ seedLimit ≤ (action.on t).generator.seed := by
  refine ⟨?_, Int64.le_trans hfull (h.seed_le_on action)⟩
  rcases on_cases action t with hon | ⟨hlt, -⟩ | hon | ⟨buffer, stored, -, hon⟩ | ⟨listening, hon⟩
  · rw [hon]
  · exact absurd hlt (Int64.not_lt.2 hfull)
  · rw [hon, saved]
  · rw [hon, merged]
  · rw [hon, heard]

theorem run_exhausted (h : t.Sound p) (hfull : seedLimit ≤ t.generator.seed)
    (actions : List Action) :
    (t.run actions).issued = t.issued ∧ seedLimit ≤ (t.run actions).generator.seed := by
  induction actions generalizing t with
  | nil => exact ⟨rfl, hfull⟩
  | cons action actions ih =>
      obtain ⟨hissued, hseed⟩ := h.on_exhausted hfull action
      rw [← hissued]
      exact ih (h.on action) hseed

theorem take_eq_error (h : t.Sound p) (hfull : seedLimit ≤ t.generator.seed) :
    t.generator.take = .error (.idsExhausted p) := by
  rw [IdGenerator.take, if_pos hfull, h.idPrefix]

theorem issued_range (h : t.Sound p) {k : Int64} (hk : k ∈ t.issued) :
    k >>> Int64.ofNat seedBits = p ∧ (0 ≤ k ∧ k < absentLong) ∧
      ∃ s, (0 ≤ s ∧ s < seedLimit) ∧ k.toInt = p.toInt * 2 ^ seedBits + s.toInt := by
  obtain ⟨s, ⟨hnonneg, hlt⟩, rfl⟩ := h.issued k hk
  have hlimit := Int64.lt_of_lt_of_le hlt h.seed_range.2
  have hs : 0 ≤ s ∧ s ≤ seedLimit := ⟨hnonneg, Int64.le_of_lt hlimit⟩
  exact ⟨shiftRight_key h.idPrefix_range hs, key_range h.idPrefix_range ⟨hnonneg, hlimit⟩, s,
    ⟨hnonneg, hlimit⟩, toInt_key h.idPrefix_range hs⟩

/-- The ids of a history that begins where another one ended may follow the ids of that one. -/
theorem after (h : t.Sound p) (h' : t'.Sound p) (hissued : t'.issued = [])
    (hle : t.generator.seed ≤ t'.generator.seed) : (t'.after t.issued).Sound p := by
  have hall : (t'.after t.issued).issued = t.issued := by
    rw [History.after, hissued, List.append_nil]
  refine ⟨h'.idPrefix, h'.idPrefix_range, h'.seed_range, fun k hk => ?_, ?_, h'.stored⟩
  · rw [hall] at hk
    obtain ⟨s, ⟨hnonneg, hs⟩, hkey⟩ := h.issued k hk
    exact ⟨s, ⟨hnonneg, Int64.lt_of_lt_of_le hs hle⟩, hkey⟩
  · rw [hall]
    exact h.increasing

/-- A new generator that loads the seed of another one goes on where that one is. -/
theorem reload (h : t.Sound p) (hg : ofPrefix p = .ok g) {buffer : Bytes}
    (hread : decode buffer = .ok t.generator.seed) :
    (∃ g', g.load buffer = .ok g') ∧
      ∀ later, (t.issued ++
        (History.run { generator := g } (.load buffer :: later)).issued).Pairwise (· < ·) := by
  have hempty : ¬ buffer.isEmpty = true := by
    rw [(decode_eq_ok_iff.1 hread).2, List.isEmpty_iff]
    exact t.generator.encode_ne_nil
  have hload := load_of_decode hread g
  refine ⟨⟨_, hload⟩, fun later => ?_⟩
  have hopened := (Sound.opened hg).on (.load buffer)
  have hon : (Action.load buffer).on { generator := g } =
      { generator := g.merge t.generator.seed, stored := some buffer } := by
    simp only [Action.on, hload, hempty]
    rfl
  rw [hon] at hopened
  have hrun := ((h.after hopened rfl (le_seed_merge g _).2).run later).increasing
  rw [run_after, ← hon] at hrun
  exact hrun

end Sound

end History

open History

/-- A generator may be saved and loaded from any text at any time. The ids that it hands out only
grow, they are its prefix before a seed and never the null value, and generators of different
prefixes share none. Its seed never moves back, and once it has refused an id it refuses for ever.
While it is clean, the text with a seed in it that it saved or took in last holds its seed, so that
a new generator that loads this text goes on above all the ids handed out before. -/
theorem issued_increasing (hg : ofPrefix p = .ok g) (actions : List Action) :
    let t := History.run { generator := g } actions
    t.issued.Pairwise (· < ·) ∧
    (∀ k ∈ t.issued, k >>> Int64.ofNat seedBits = p ∧ (0 ≤ k ∧ k < absentLong) ∧
      ∃ s, (0 ≤ s ∧ s < seedLimit) ∧ k.toInt = p.toInt * 2 ^ seedBits + s.toInt) ∧
    (∀ p' g' actions', ofPrefix p' = .ok g' → p' ≠ p →
      List.Disjoint (History.run { generator := g' } actions').issued t.issued) ∧
    (0 ≤ t.generator.seed ∧ t.generator.seed ≤ seedLimit) ∧
    (∀ later, t.generator.seed ≤ (t.run later).generator.seed) ∧
    (∀ e later, t.generator.take = .error e →
      (t.run later).generator.take = .error (.idsExhausted p) ∧
      (t.run later).issued = t.issued ∧
      (t.run later).generator.seed = t.generator.seed) ∧
    (t.generator.isDirty = false →
      (t.stored = none → t.generator.seed = 0 ∧ t.issued = []) ∧
      ∀ buffer, t.stored = some buffer →
        decode buffer = .ok t.generator.seed ∧
        (∃ g', g.load buffer = .ok g') ∧
        ∀ later, (t.issued ++
          (History.run { generator := g } (.load buffer :: later)).issued).Pairwise (· < ·)) := by
  intro t
  have h : t.Sound p := (Sound.opened hg).run actions
  refine ⟨h.increasing, fun k hk => h.issued_range hk, fun p' g' actions' hg' hne k hk' hk => ?_,
    h.seed_range, h.seed_le_run, fun e later he => ?_, fun hclean => ⟨fun hnone => ?_,
    fun buffer hsome => ?_⟩⟩
  · have hnumber := (((Sound.opened hg').run actions').issued_range hk').1
    exact hne (hnumber.symm.trans (h.issued_range hk).1)
  · have hfull : seedLimit ≤ t.generator.seed := by
      by_contra hfree
      rw [take, if_neg hfree] at he
      cases he
    have hlater := h.run later
    obtain ⟨hissued, hfull'⟩ := h.run_exhausted hfull later
    refine ⟨hlater.take_eq_error hfull', hissued, ?_⟩
    exact Int64.le_antisymm (Int64.le_trans hlater.seed_range.2 hfull) (h.seed_le_run later)
  · have hzero := h.stored hclean
    rw [hnone] at hzero
    refine ⟨hzero, List.eq_nil_iff_forall_not_mem.2 fun k hk => ?_⟩
    obtain ⟨s, ⟨hnonneg, hlt⟩, -⟩ := h.issued k hk
    rw [show t.generator.seed = 0 from hzero] at hlt
    exact Int64.lt_irrefl (Int64.lt_of_le_of_lt hnonneg hlt)
  · have hread := h.stored hclean
    rw [hsome] at hread
    exact ⟨hread, h.reload hg hread⟩

theorem issued_increasing_three :
    let g : IdGenerator := { idPrefix := 3 }
    let saved := History.run { generator := g } [.take, .save]
    let full := History.run { generator := g } [.load (Field.encodeInt64 seedLimit)]
    ofPrefix 3 = .ok g ∧
    saved.generator.isDirty = false ∧ saved.issued = [key 3 0] ∧
    saved.stored = some (Field.encodeInt64 1) ∧
    (∀ later, (saved.issued ++ (History.run { generator := g }
      (.load (Field.encodeInt64 1) :: later)).issued).Pairwise (· < ·)) ∧
    (∀ actions, List.Disjoint
      (History.run { generator := { idPrefix := 4 } } actions).issued saved.issued) ∧
    full.generator.take = .error (.idsExhausted 3) ∧
    ∀ later, (full.run later).generator.take = .error (.idsExhausted 3) := by
  intro g saved full
  have hg : ofPrefix 3 = .ok g := rfl
  have hsaved := issued_increasing hg [.take, .save]
  have hfull := issued_increasing hg [.load (Field.encodeInt64 seedLimit)]
  let last : IdGenerator := { idPrefix := 3, seed := seedLimit }
  have hload : g.load (Field.encodeInt64 seedLimit) = .ok (g.merge seedLimit) :=
    load_encode_eq (n := last) (by decide) g
  have hrefused : full.generator.take = .error (.idsExhausted 3) := by
    have hmerge : g.merge seedLimit = last := by decide
    simp only [full, History.run, List.foldl, Action.on, hload, hmerge]
    exact if_pos (by decide)
  obtain ⟨-, -, hdisjoint, -, -, -, hclean⟩ := hsaved
  obtain ⟨-, -, -, -, -, hlater, -⟩ := hfull
  exact ⟨hg, rfl, rfl, rfl, ((hclean rfl).2 _ rfl).2.2,
    fun actions => hdisjoint 4 _ actions rfl (by decide), hrefused,
    fun later => (hlater _ later hrefused).1⟩

/-- An empty text is taken in without a seed, so a generator may be clean after it and still be
ahead of a new one that loads it. -/
theorem reissued_after_empty_load :
    let g : IdGenerator := { idPrefix := 3 }
    let t := History.run { generator := g } [.take, .save, .load []]
    ofPrefix 3 = .ok g ∧ t.generator.load [] = .ok t.generator ∧ t.generator.isDirty = false ∧
      t.generator.seed = 1 ∧ g.load [] = .ok g ∧
      (History.run { generator := g } [.load [], .take]).issued = t.issued ∧ t.issued ≠ [] :=
  ⟨rfl, rfl, rfl, rfl, rfl, rfl, List.cons_ne_nil _ _⟩

end ChunkCache.IdGenerator
