import ChunkCache.Proofs.Cache.Layout

namespace ChunkCache.Cache

variable {sizing : Sizing} {c c' : Cache sizing} {i j : Fin sizing.capacity} {a : Address}
variable {start : Option (Fin sizing.capacity)} {l xs ys : List (Fin sizing.capacity)}

/-- The occupied slots whose addresses belong to a bucket are those of the list. -/
def Lists (c : Cache sizing) (bucket : Nat) (l : List (Fin sizing.capacity)) : Prop :=
  ∀ i, i ∈ l ↔ ∃ a, c.tenant? i = some a ∧ c.bucketOf a = bucket

/-- The index is exact: every chain ends and meets the slots of its bucket, each of them once, and
no address has two slots. A cache without buckets has no chunks. -/
structure Indexed (c : Cache sizing) : Prop where
  chains : ∀ bucket, ∃ l, Chain c.next? (c.chainStart bucket) l ∧ c.Lists bucket l
  distinct : ∀ {i j a}, c.tenant? i = some a → c.tenant? j = some a → i = j

section Search

theorem search_eq_find? {steps : Nat} (h : Chain c.next? start l) (hsteps : l.length ≤ steps) :
    c.search a steps start = l.find? fun i => c.tenant? i = some a := by
  induction steps generalizing start l with
  | zero =>
      obtain rfl := List.eq_nil_of_length_eq_zero (Nat.le_zero.1 hsteps)
      rfl
  | succ steps ih =>
      cases l with
      | nil =>
          rw [h.start_eq]
          rfl
      | cons i l =>
          rw [h.1, search, List.find?_cons]
          by_cases hi : c.tenant? i = some a
          · simp [hi]
          · simpa [hi] using ih h.2 (Nat.le_of_succ_le_succ hsteps)

theorem start_ne_of_chain (h : Chain c.next? start (xs ++ j :: i :: ys)) : start ≠ some i := by
  have hnodup := h.nodup
  rw [h.start_eq]
  cases xs with
  | nil => simp_all
  | cons k xs =>
      intro hk
      simp_all

theorem predecessor_eq {steps : Nat} (h : Chain c.next? start (xs ++ j :: i :: ys))
    (hsteps : xs.length < steps) : c.predecessor i steps start = some j := by
  induction steps generalizing start xs with
  | zero => omega
  | succ steps ih =>
      cases xs with
      | nil =>
          rw [h.1, predecessor, if_pos h.2.1]
      | cons k xs =>
          rw [h.1, predecessor, if_neg (start_ne_of_chain h.2)]
          exact ih h.2 (Nat.lt_of_succ_lt_succ hsteps)

namespace Indexed

/-- With steps for every slot a search from the start of its chain looks at all of them. -/
theorem search_eq_some_iff {steps : Nat} (h : Indexed c) (hsteps : sizing.capacity ≤ steps) :
    c.search a steps (c.chainHead a) = some i ↔ c.tenant? i = some a := by
  obtain ⟨l, hchain, hlists⟩ := h.chains (c.bucketOf a)
  have hlength := length_le_of_nodup hchain.nodup
  rw [chainHead_eq, search_eq_find? hchain (Nat.le_trans hlength hsteps)]
  constructor
  · intro hfind
    simpa using List.find?_some hfind
  · intro hi
    have hmem : i ∈ l := (hlists i).2 ⟨a, hi, rfl⟩
    cases hfind : l.find? fun i => c.tenant? i = some a with
    | none => simpa [hi] using List.find?_eq_none.1 hfind i hmem
    | some j =>
        have hj : c.tenant? j = some a := by simpa using List.find?_some hfind
        rw [h.distinct hj hi]

theorem find_eq_some_iff (h : Indexed c) : c.find a = some i ↔ c.tenant? i = some a :=
  h.search_eq_some_iff (Nat.le_succ _)

theorem find_eq_none_iff (h : Indexed c) : c.find a = none ↔ ∀ i, c.tenant? i ≠ some a := by
  constructor
  · intro hnone i hi
    rw [h.find_eq_some_iff.2 hi] at hnone
    cases hnone
  · intro hnone
    cases hfind : c.find a with
    | none => rfl
    | some i => exact absurd (h.find_eq_some_iff.1 hfind) (hnone i)

/-- The search in the index agrees with a look at all slots. -/
theorem find_eq_scan (h : Indexed c) :
    c.find a = (List.finRange sizing.capacity).find? fun i => c.tenant? i = some a := by
  cases hscan : (List.finRange sizing.capacity).find? fun i => c.tenant? i = some a with
  | none =>
      refine h.find_eq_none_iff.2 fun i => ?_
      simpa using List.find?_eq_none.1 hscan i (List.mem_finRange i)
  | some i => exact h.find_eq_some_iff.2 (by simpa using List.find?_some hscan)

theorem of_links (h : Indexed c) (htenant : c'.tenant? = c.tenant?) (hnext : c'.next? = c.next?)
    (hbuckets : c'.buckets = c.buckets) (hhash : c'.hash = c.hash) : Indexed c' where
  chains bucket := by
    obtain ⟨l, hchain, hlists⟩ := h.chains bucket
    refine ⟨l, ?_, ?_⟩
    · rw [hnext, chainStart, hbuckets]
      exact hchain
    · intro i
      rw [htenant, bucketOf_of_hash hhash]
      exact hlists i
  distinct := by
    rw [htenant]
    exact h.distinct

theorem congr (h : Indexed c) (hlayout : SameLayout c c') : Indexed c' :=
  h.of_links hlayout.tenant hlayout.next hlayout.buckets hlayout.hash

theorem emptyWith (hash : Address → UInt64) : Indexed (emptyWith sizing hash) where
  chains bucket := by
    refine ⟨[], ?_, fun i => ?_⟩
    · simp only [Chain, chainStart, Cache.emptyWith, Vector.getElem?_replicate]
      split <;> rfl
    · simp [tenant?, slots_emptyWith]
  distinct := by simp [tenant?, slots_emptyWith]

end Indexed

end Search

section Leave

theorem chainStart_setChainHead {target : Option (Fin sizing.capacity)} {bucket : Nat}
    (hbucket : c.bucketOf a < sizing.buckets) : (c.setChainHead a target).chainStart bucket =
      if c.bucketOf a = bucket then target else c.chainStart bucket := by
  simp only [chainStart, setChainHead, Vector.getElem?_setIfInBounds, hbucket, if_true]
  split <;> rfl

theorem bucketOf_lt (hbuckets : 0 < sizing.buckets) : c.bucketOf a < sizing.buckets :=
  Nat.mod_lt _ hbuckets

theorem lt_of_chainStart {bucket : Nat} (h : c.chainStart bucket = some i) :
    bucket < sizing.buckets := by
  by_contra hge
  simp [chainStart, Vector.getElem?_eq_none (Nat.le_of_not_lt hge)] at h

theorem bucketOf_lt_of_chain (h : Chain c.next? (c.chainHead a) (xs ++ i :: ys)) :
    c.bucketOf a < sizing.buckets := by
  cases xs with
  | nil => exact lt_of_chainStart h.1
  | cons j xs => exact lt_of_chainStart h.1

theorem next?_leaveChain (h : Chain c.next? (c.chainHead a) (xs ++ i :: ys)) :
    (c.leaveChain i a).next? j =
      if i = j then none else if xs.getLast? = some j then c.next? i else c.next? j := by
  unfold leaveChain
  simp only [setNext, next?_setSlot]
  split
  · rfl
  rcases List.eq_nil_or_concat xs with rfl | ⟨zs, p, rfl⟩
  · rw [if_pos h.1]
    simp [next?, setChainHead]
  · simp only [List.concat_eq_append, List.append_assoc, List.cons_append, List.nil_append] at h ⊢
    have hlength := length_le_of_nodup h.nodup
    rw [if_neg (start_ne_of_chain h), predecessor_eq h (by simp at hlength; omega)]
    simp only [next?_setSlot, List.getLast?_append_cons, List.getLast?_singleton, Option.some.injEq]

theorem chainStart_leaveChain {bucket : Nat}
    (h : Chain c.next? (c.chainHead a) (xs ++ i :: ys)) : (c.leaveChain i a).chainStart bucket =
      if xs = [] ∧ c.bucketOf a = bucket then c.next? i else c.chainStart bucket := by
  have hbucket := bucketOf_lt_of_chain h
  change (if c.chainHead a = some i then c.setChainHead a (c.next? i)
    else _ : Cache sizing).chainStart bucket = _
  rcases List.eq_nil_or_concat xs with rfl | ⟨zs, p, rfl⟩
  · rw [if_pos h.1, chainStart_setChainHead hbucket]
    simp
  · simp only [List.concat_eq_append, List.append_assoc, List.cons_append, List.nil_append] at h
    rw [if_neg (start_ne_of_chain h), if_neg (by simp)]
    split <;> rfl

theorem leaveChain_frame : ∃ slots buckets, c.leaveChain i a = { c with slots, buckets } ∧
    ∀ j : Fin sizing.capacity, ∃ next, slots.get j = { c.slots.get j with next } := by
  have hsetNext : ∀ (c : Cache sizing) k next (j : Fin sizing.capacity),
      ∃ next', (c.setNext k next).slots.get j = { c.slots.get j with next := next' } := by
    intro c k next j
    rw [setNext, slots_setSlot]
    split
    · rename_i hkj
      subst hkj
      exact ⟨next, rfl⟩
    · exact ⟨(c.slots.get j).next, rfl⟩
  unfold leaveChain
  simp only
  split
  · exact ⟨_, _, rfl, hsetNext (c.setChainHead a _) i none⟩
  · split
    · rename_i p _
      refine ⟨_, _, rfl, fun j => ?_⟩
      obtain ⟨next, hnext⟩ := hsetNext (c.setNext p (c.next? i)) i none j
      obtain ⟨next', hnext'⟩ := hsetNext c p (c.next? i) j
      rw [hnext'] at hnext
      exact ⟨next, hnext⟩
    · exact ⟨_, _, rfl, hsetNext c i none⟩

theorem next?_dismiss : (c.dismiss i a).next? j = (c.leaveChain i a).next? j := by
  rw [dismiss, next?_setSlot]
  split <;> simp_all [next?]

theorem tenant?_dismiss :
    (c.dismiss i a).tenant? j = if i = j then none else c.tenant? j := by
  rw [dismiss, tenant?_setSlot]
  obtain ⟨slots, buckets, heq, hslots⟩ := leaveChain_frame (c := c) (i := i) (a := a)
  obtain ⟨next, hnext⟩ := hslots j
  split
  · rfl
  · rw [heq, tenant?, hnext]
    rfl

theorem cell?_dismiss : (c.dismiss i a).cell? j = c.cell? j := by
  obtain ⟨slots, buckets, heq, hslots⟩ := leaveChain_frame (c := c) (i := i) (a := a)
  obtain ⟨next, hnext⟩ := hslots j
  rw [dismiss, cell?_setSlot, heq]
  split
  · rename_i hij
    subst hij
    rw [hnext]
    rfl
  · rw [cell?, hnext]
    rfl

theorem mark_dismiss : (c.dismiss i a).mark j = c.mark j := by
  obtain ⟨slots, buckets, heq, hslots⟩ := leaveChain_frame (c := c) (i := i) (a := a)
  obtain ⟨next, hnext⟩ := hslots j
  rw [dismiss, mark_setSlot, heq]
  split
  · rename_i hij
    subst hij
    rw [hnext]
    rfl
  · rw [mark, hnext]
    rfl

theorem dismiss_frame : ∃ slots buckets, c.dismiss i a = { c with slots, buckets } := by
  obtain ⟨slots, buckets, heq, -⟩ := leaveChain_frame (c := c) (i := i) (a := a)
  rw [dismiss, heq]
  exact ⟨_, _, rfl⟩

theorem bucketOf_dismiss : (c.dismiss i a).bucketOf = c.bucketOf := by
  obtain ⟨slots, buckets, heq⟩ := dismiss_frame (c := c) (i := i) (a := a)
  rw [heq]
  rfl

/-- A slot that is dismissed leaves the chain of its bucket, and the other chains stay. -/
theorem Indexed.dismiss (h : Indexed c) (hi : c.tenant? i = some a) : Indexed (c.dismiss i a) where
  chains bucket := by
    obtain ⟨l, hchain, hlists⟩ := h.chains (c.bucketOf a)
    obtain ⟨xs, ys, rfl⟩ := List.append_of_mem ((hlists i).2 ⟨a, hi, rfl⟩)
    have hstart : ∀ bucket, (c.dismiss i a).chainStart bucket =
        if xs = [] ∧ c.bucketOf a = bucket then c.next? i else c.chainStart bucket :=
      fun bucket => chainStart_leaveChain hchain
    have hnext : ∀ j, (c.dismiss i a).next? j =
        if i = j then none else if xs.getLast? = some j then c.next? i else c.next? j :=
      fun j => next?_dismiss.trans (next?_leaveChain hchain)
    have hnodup := List.nodup_cons.1 (List.nodup_middle.1 hchain.nodup)
    by_cases hbucket : c.bucketOf a = bucket
    · subst hbucket
      refine ⟨xs ++ ys, hchain.remove ?_ ?_ ?_, fun j => ?_⟩
      · rw [hstart]
        simp
      · intro p hp
        rw [hnext, if_neg, if_pos hp]
        rintro rfl
        exact hnodup.1 (List.mem_append_left _ (List.mem_of_getLast? hp))
      · intro j hj hlast
        rw [hnext, if_neg (Ne.symm hj), if_neg hlast]
      · rw [tenant?_dismiss, bucketOf_dismiss]
        rcases eq_or_ne i j with rfl | hij
        · simpa using hnodup.1
        · rw [if_neg hij, ← hlists j]
          simp [Ne.symm hij]
    · obtain ⟨l, hchain', hlists'⟩ := h.chains bucket
      have hout : ∀ j ∈ xs ++ i :: ys, j ∉ l := by
        intro j hj hl
        obtain ⟨b, hb, hbucket'⟩ := (hlists j).1 hj
        obtain ⟨b', hb', hbucket''⟩ := (hlists' j).1 hl
        rw [hb] at hb'
        cases hb'
        exact hbucket (hbucket'.symm.trans hbucket'')
      refine ⟨l, ?_, fun j => ?_⟩
      · rw [hstart, if_neg fun hand => hbucket hand.2]
        refine hchain'.congr fun j hj => ?_
        rw [hnext, if_neg, if_neg]
        · intro hlast
          exact hout j (List.mem_append_left _ (List.mem_of_getLast? hlast)) hj
        · rintro rfl
          exact hout i (by simp) hj
      · rw [tenant?_dismiss, bucketOf_dismiss]
        rcases eq_or_ne i j with rfl | hij
        · simpa using hout i (by simp)
        · rw [if_neg hij, hlists' j]
  distinct {j k b} hj hk := by
    rw [tenant?_dismiss] at hj hk
    split at hj
    · cases hj
    · split at hk
      · cases hk
      · exact h.distinct hj hk

end Leave

section Enter

variable {k : Fin sizing.capacity}

theorem tenant?_settle : (c.settle i k a).tenant? j = if i = j then some a else c.tenant? j := by
  change ((c.setSlot i _).setNext i _).tenant? j = _
  rw [setNext, tenant?_setSlot]
  split
  · rw [slots_setSlot, if_pos rfl]
  · rw [tenant?_setSlot, if_neg ‹_›]

theorem cell?_settle : (c.settle i k a).cell? j = if i = j then some k else c.cell? j := by
  change ((c.setSlot i _).setNext i _).cell? j = _
  rw [setNext, cell?_setSlot]
  split
  · rw [slots_setSlot, if_pos rfl]
  · rw [cell?_setSlot, if_neg ‹_›]

theorem mark_settle : (c.settle i k a).mark j = c.mark j := by
  change ((c.setSlot i _).setNext i _).mark j = _
  rw [setNext, mark_setSlot]
  split
  · rename_i hij
    subst hij
    rw [slots_setSlot, if_pos rfl, mark]
  · rw [mark_setSlot, if_neg ‹_›]

theorem next?_settle : (c.settle i k a).next? j = if i = j then c.chainHead a else c.next? j := by
  change ((c.setSlot i _).setNext i _).next? j = _
  rw [setNext, next?_setSlot]
  split
  · rfl
  · rw [next?_setSlot, if_neg ‹_›]

theorem chainStart_settle {bucket : Nat} (hbuckets : 0 < sizing.buckets) :
    (c.settle i k a).chainStart bucket =
      if c.bucketOf a = bucket then some i else c.chainStart bucket :=
  chainStart_setChainHead (bucketOf_lt hbuckets)

theorem bucketOf_settle : (c.settle i k a).bucketOf = c.bucketOf := rfl

/-- A slot that settles comes to the start of the chain of its bucket. -/
theorem Indexed.settle (h : Indexed c) (hbuckets : 0 < sizing.buckets) (hi : c.tenant? i = none)
    (ha : ∀ j, c.tenant? j ≠ some a) : Indexed (c.settle i k a) where
  chains bucket := by
    obtain ⟨l, hchain, hlists⟩ := h.chains bucket
    have hout : i ∉ l := by
      intro hl
      obtain ⟨b, hb, -⟩ := (hlists i).1 hl
      rw [hi] at hb
      cases hb
    have hchain' : Chain (c.settle i k a).next? (c.chainStart bucket) l := by
      refine hchain.congr fun j hj => ?_
      rw [next?_settle, if_neg]
      rintro rfl
      exact hout hj
    by_cases hbucket : c.bucketOf a = bucket
    · subst hbucket
      refine ⟨i :: l, ⟨?_, ?_⟩, fun j => ?_⟩
      · rw [chainStart_settle hbuckets, if_pos rfl]
      · rw [next?_settle, if_pos rfl]
        exact hchain'
      · rw [tenant?_settle, bucketOf_settle, List.mem_cons, hlists j]
        by_cases hij : i = j
        · simp [hij]
        · simp [hij, Ne.symm hij]
    · refine ⟨l, ?_, fun j => ?_⟩
      · rw [chainStart_settle hbuckets, if_neg hbucket]
        exact hchain'
      · rw [tenant?_settle, bucketOf_settle]
        rcases eq_or_ne i j with rfl | hij
        · simp [hout, hbucket]
        · rw [if_neg hij, hlists j]
  distinct {j k b} hj hk := by
    rw [tenant?_settle] at hj hk
    split at hj <;> split at hk
    · simp_all
    · cases hj
      exact absurd hk (ha k)
    · cases hk
      exact absurd hj (ha j)
    · exact h.distinct hj hk

end Enter

end ChunkCache.Cache
