import Mathlib.Logic.Function.Basic
import ChunkCache.AttributeMap.Family
import ChunkCache.Proofs.Mutation

/-!
Forks are copies. A family of maps that share indexes and values answers like one in which a fork
copies all attributes of its origin, so what is written to one map shows in no other. Tags tell
which maps still share an index: a fork takes the tag of its origin, and whatever is new or written
takes a tag of its own.
-/

namespace ChunkCache

/-- The value as one of a declared type: ints are widened to long integers, and nothing else is
changed. -/
def Value.widened? (v : Value) (ty : AttributeType) : Option Value :=
  if v.type = ty then some v
  else
    match v, ty with
    | .int n, .long => some (.long n.toInt64)
    | _, _ => none

theorem Value.coerce_eq (v : Value) (key : Int64) (ty : AttributeType) :
    v.coerce key ty =
      match v.widened? ty with
      | some w => .ok w
      | none => .error (.wrongType key ty.name v.type.name) := by
  unfold coerce widened?
  split
  · rfl
  · cases v with
    | int n => cases ty <;> rfl
    | _ => rfl

/-- The calls that write one map. An edit takes the collection of a type under a key, which is made
empty if there is none, and changes it in place. -/
inductive Write where
  | set (key : Int64) (ty : AttributeType) (value : Value)
  | remove (key : Int64)
  | edit (key : Int64) (ty : AttributeType) (f : Collection → Collection)
  | load (buffer : Bytes)
  | save
  | touch

namespace Write

open Mutation (settle)

/-- The answer to a call and the map after it; a call that is refused leaves the map. -/
def on (own : Ownership) : Write → AttributeMap → Except Error Unit × AttributeMap
  | set key ty value, m => settle m (m.set own key ty value)
  | remove key, m => (.ok (), m.remove own key)
  | edit key ty f, m => settle m ((m.edit own key ty fun c => ((), f c)).map (·.2))
  | load buffer, m => settle m (m.load own buffer)
  | save, m => (.ok (), m.save.2)
  | touch, m => (.ok (), m.touch)

/-- Whether a call is made; any other is refused. -/
noncomputable def accepted : Write → Bool
  | set _ ty value => (value.widened? ty).isSome
  | edit _ ty _ => ty.isCollection
  | load buffer => (buffer.spelled? AttributeMap.Spells).isSome
  | remove _ | save | touch => true

/-- The attributes after a call that has an effect on them; another call leaves the map and what it
shares. -/
noncomputable def effect? (values : SortedMap Int64 Value) : Write → Option (SortedMap Int64 Value)
  | set key ty value => (value.widened? ty).map (values.insert key)
  | remove key => if (values.get? key).isSome then some (values.erase key) else none
  | edit key ty f => (Collection.empty? ty).map fun empty =>
    values.insert key (.collection (f (Content.collection values key empty)))
  | load buffer =>
    match buffer.spelled? AttributeMap.Spells with
    | some [] | none => none
    | some records => some (values.insertMany records)
  | save | touch => none

end Write

/-- What an insertion of many pairs binds comes from one of them or was bound before. -/
theorem SortedMap.get?_insertMany_eq_some {κ β : Type} [Ord κ] [Std.TransOrd κ]
    [Std.LawfulEqOrd κ] {m : SortedMap κ β} {pairs : List (κ × β)} {k : κ} {v : β}
    (h : (m.insertMany pairs).get? k = some v) : m.get? k = some v ∨ (k, v) ∈ pairs := by
  induction pairs generalizing m with
  | nil => exact .inl h
  | cons e pairs ih =>
      rcases ih h with hbefore | hmem
      · by_cases hk : k = e.1
        · rw [hk, get?_insert_self, Option.some.injEq] at hbefore
          rw [hk, ← hbefore]
          exact .inr List.mem_cons_self
        · rw [get?_insert_of_ne _ hk] at hbefore
          exact .inl hbefore
      · exact .inr (List.mem_cons_of_mem _ hmem)

namespace AttributeMap

variable {m : AttributeMap} {own : Ownership} {key : Int64}

/-- All that a write may do to the objects of a map: an index that others use is copied, and a value
is kept, or made by this write, or changed in place where no other map uses it. -/
structure Rewritten (own : Ownership) (m m' : AttributeMap) : Prop where
  index_eq : m'.index = if own.indexShared then own.fresh else m.index
  object : ∀ {key a}, m'.attribute? key = some a →
    m.attribute? key = some a ∨ a.stamp = own.fresh ∨
      own.valueShared key = false ∧ ∃ b, m.attribute? key = some b ∧ b.stamp = a.stamp

/-- To put a value under a key is such a write, if the value is new or no other map uses the one
that it was made from. -/
theorem rewritten_insert {a : Attribute} (h : a.stamp = own.fresh ∨
    own.valueShared key = false ∧ ∃ b, m.attribute? key = some b ∧ b.stamp = a.stamp) :
    Rewritten own m ((m.withEntries own (m.entries.insert key a)).touch) where
  index_eq := rfl
  object := by
    intro other b hb
    change (m.entries.insert key a).get? other = some b at hb
    by_cases hother : other = key
    · rw [hother, SortedMap.get?_insert_self, Option.some.injEq] at hb
      rw [hother, ← hb]
      exact .inr h
    · rw [SortedMap.get?_insert_of_ne _ hother] at hb
      exact .inl hb

theorem isSome_values (m : AttributeMap) (key : Int64) :
    (m.values.get? key).isSome = m.contains key := by
  rw [values, SortedMap.get?_mapValues, Option.isSome_map]
  rfl

theorem editable_snd (m : AttributeMap) (own : Ownership) (key : Int64) (empty : Collection) :
    (m.editable own key empty).2 = own.fresh ∨ own.valueShared key = false ∧
      ∃ b, m.attribute? key = some b ∧ b.stamp = (m.editable own key empty).2 := by
  unfold editable
  split
  · rename_i c stamp hpresent
    split
    · cases hshared : own.valueShared key with
      | true => exact .inl rfl
      | false => exact .inr ⟨rfl, _, hpresent, rfl⟩
    · exact .inl rfl
  · exact .inl rfl

theorem rewritten_merge {records : List (Int64 × Value)} (h : records ≠ []) :
    Rewritten own m (m.merge own records) := by
  have hobject {key : Int64} {a : Attribute}
      (ha : (m.entries.insertMany (records.map fun e => (e.1, ⟨e.2, own.fresh⟩))).get? key =
        some a) :
      m.attribute? key = some a ∨ a.stamp = own.fresh := by
    refine (SortedMap.get?_insertMany_eq_some ha).imp_right fun hmem => ?_
    obtain ⟨e, -, he⟩ := List.mem_map.1 hmem
    cases he
    rfl
  unfold merge
  rw [if_neg fun hempty => h (List.isEmpty_iff.1 hempty)]
  dsimp only
  split
  · exact ⟨rfl, fun ha => (hobject ha).imp_right .inl⟩
  · exact ⟨rfl, fun ha => (hobject ha).imp_right .inl⟩

end AttributeMap

namespace Write

open AttributeMap (Rewritten spelled?_eq)

variable {w : Write} {m : AttributeMap} {values : SortedMap Int64 Value}

theorem isOk_on (w : Write) (own : Ownership) (m : AttributeMap) :
    (w.on own m).1.isOk = w.accepted := by
  cases w with
  | set key ty value =>
      rw [on, accepted, AttributeMap.set, Value.coerce_eq]
      cases value.widened? ty <;> rfl
  | edit key ty f => cases ty <;> rfl
  | load buffer =>
      rw [on, accepted, AttributeMap.load, spelled?_eq]
      cases AttributeMap.decodeRecords buffer <;> rfl
  | _ => rfl

theorem on_of_effect (own : Ownership) (h : w.effect? m.values = some values) :
    (w.on own m).2.values = values ∧ Rewritten own m (w.on own m).2 := by
  cases w with
  | set key ty value =>
      obtain ⟨v, hv, rfl⟩ := Option.map_eq_some_iff.1 h
      have hset : m.set own key ty value =
          .ok (m.withEntries own (m.entries.insert key ⟨v, own.fresh⟩)).touch := by
        rw [AttributeMap.set, Value.coerce_eq, hv]
        rfl
      rw [on, hset]
      exact ⟨AttributeMap.values_insert .., AttributeMap.rewritten_insert (.inl rfl)⟩
  | remove key =>
      rw [effect?, AttributeMap.isSome_values] at h
      split at h
      case isFalse => cases h
      rename_i hpresent
      cases h
      rw [on, AttributeMap.remove, if_pos hpresent]
      refine ⟨SortedMap.mapValues_erase _, rfl, ?_⟩
      intro other b hb
      by_cases hother : other = key
      · have hnone : (m.entries.erase key).get? key = none := SortedMap.get?_erase_self _ key
        rw [hother] at hb
        exact absurd (hnone.symm.trans hb) nofun
      · exact .inl ((SortedMap.get?_erase_of_ne _ hother).symm.trans hb)
  | edit key ty f =>
      obtain ⟨empty, hempty, rfl⟩ := Option.map_eq_some_iff.1 h
      rw [on, AttributeMap.edit, hempty, ← m.editable_fst own]
      exact ⟨AttributeMap.values_insert ..,
        AttributeMap.rewritten_insert (m.editable_snd own key empty)⟩
  | load buffer =>
      rw [effect?, spelled?_eq] at h
      rw [on, AttributeMap.load]
      cases hread : AttributeMap.decodeRecords buffer with
      | error e =>
          rw [hread] at h
          cases h
      | ok records =>
          rw [hread] at h
          cases records with
          | nil => cases h
          | cons e records =>
              cases h
              exact ⟨m.values_merge own _,
                AttributeMap.rewritten_merge (List.cons_ne_nil e records)⟩
  | save => cases h
  | touch => cases h

theorem on_of_no_effect (own : Ownership) (h : w.effect? m.values = none) :
    (w.on own m).2.entries = m.entries ∧ (w.on own m).2.index = m.index := by
  cases w with
  | set key ty value =>
      have hset : ∃ e, m.set own key ty value = .error e := by
        rw [AttributeMap.set, Value.coerce_eq, Option.map_eq_none_iff.1 h]
        exact ⟨_, rfl⟩
      obtain ⟨e, he⟩ := hset
      rw [on, he]
      exact ⟨rfl, rfl⟩
  | remove key =>
      rw [effect?, AttributeMap.isSome_values] at h
      split at h
      · cases h
      · rename_i habsent
        rw [on, AttributeMap.remove, if_neg habsent]
        exact ⟨rfl, rfl⟩
  | edit key ty f =>
      rw [on, AttributeMap.edit, Option.map_eq_none_iff.1 h]
      exact ⟨rfl, rfl⟩
  | load buffer =>
      rw [effect?, spelled?_eq] at h
      rw [on, AttributeMap.load]
      cases hread : AttributeMap.decodeRecords buffer with
      | error e => exact ⟨rfl, rfl⟩
      | ok records =>
          rw [hread] at h
          cases records with
          | nil => exact ⟨rfl, rfl⟩
          | cons e records => cases h
  | save => exact ⟨rfl, rfl⟩
  | touch => exact ⟨rfl, rfl⟩

end Write

namespace Family

/-- The calls on a family. -/
inductive Action where
  | create (name : String) (listening : Bool)
  | fork (origin name : String) (listening : Bool)
  | listen (name : String) (listening : Bool)
  | write (name : String) (w : Write)
  | discard (name : String)

/-- The family after a call; one on a member that there is not leaves it. -/
def after (f : Family) : Action → Family
  | .create name listening => f.create name listening
  | .fork origin name listening => (f.fork origin name listening).getD f
  | .listen name listening => (f.listen name listening).getD f
  | .write name w => ((f.update name fun own m => w.on own m).map (·.2)).getD f
  | .discard name => f.discard name

def run (f : Family) (actions : List Action) : Family := actions.foldl after f

end Family

/-- A map that shares nothing: its attributes, and a tag. -/
structure Copy where
  values : SortedMap Int64 Value
  tag : Nat

namespace Copy

def get? (c : Copy) (key : Int64) : Option Value := c.values.get? key

def type? (c : Copy) (key : Int64) : Option AttributeType := (c.get? key).map Value.type

def size (c : Copy) : Nat := c.values.size

def toList (c : Copy) : List (Int64 × Value) := c.values.entries

end Copy

/-- The live maps, if no two of them shared anything, and the next tag. -/
structure Copies where
  copy? : String → Option Copy := fun _ => none
  next : Nat := 0

namespace Copies

def put (r : Copies) (name : String) (c : Option Copy) : Copies :=
  { r with copy? := Function.update r.copy? name c }

/-- Let a map have these attributes and a tag that no other has. -/
def putFresh (r : Copies) (name : String) (values : SortedMap Int64 Value) : Copies where
  copy? := Function.update r.copy? name (some ⟨values, r.next⟩)
  next := r.next + 1

/-- A fork copies all attributes and the tag; a new map and an effective write take a fresh tag. -/
noncomputable def after (r : Copies) : Family.Action → Copies
  | .create name _ => r.putFresh name .empty
  | .fork origin name _ =>
    match r.copy? origin with
    | some c => r.put name (some c)
    | none => r
  | .listen _ _ => r
  | .write name w =>
    match r.copy? name with
    | some c =>
      match w.effect? c.values with
      | some values => r.putFresh name values
      | none => r
    | none => r
  | .discard name => r.put name none

noncomputable def run (r : Copies) (actions : List Family.Action) : Copies := actions.foldl after r

end Copies

namespace Family

variable {f : Family} {name other : String} {m n : AttributeMap} {own : Ownership} {key : Int64}

theorem lookup_others (f : Family) (name other : String) :
    (f.others name).lookup other = if other = name then none else f.get? other := by
  rw [others, get?]
  induction f.members with
  | nil => simp
  | cons e l ih =>
      obtain ⟨first, m⟩ := e
      rw [List.filter_cons]
      by_cases hfirst : first = name
      · rw [if_neg (by simpa using hfirst), ih, List.lookup_cons]
        by_cases hother : other = name
        · rw [if_pos hother, if_pos hother]
        · rw [if_neg hother, if_neg hother, hfirst, beq_false_of_ne hother]
      · rw [if_pos (by simpa using hfirst), List.lookup_cons, List.lookup_cons, ih]
        by_cases hother : other = name
        · rw [if_pos hother, if_pos hother, hother, beq_false_of_ne (Ne.symm hfirst)]
        · rw [if_neg hother, if_neg hother]

@[simp]
theorem get?_replace_self (f : Family) (name : String) (m : AttributeMap) :
    (f.replace name m).get? name = some m := by
  simp [replace, get?]

theorem get?_replace_of_ne (h : other ≠ name) (m : AttributeMap) :
    (f.replace name m).get? other = f.get? other := by
  rw [replace, get?, List.lookup_cons, beq_false_of_ne h]
  exact (f.lookup_others name other).trans (if_neg h)

theorem get?_discard (f : Family) (name other : String) :
    (f.discard name).get? other = if other = name then none else f.get? other :=
  f.lookup_others name other

/-- No two members have one name. -/
def Distinct (f : Family) : Prop := (f.members.map Prod.fst).Nodup

theorem Distinct.discard (h : f.Distinct) (name : String) : (f.discard name).Distinct :=
  h.sublist (List.filter_sublist.map _)

theorem Distinct.replace (h : f.Distinct) (name : String) (m : AttributeMap) :
    (f.replace name m).Distinct := by
  refine List.nodup_cons.2 ⟨fun hmem => ?_, h.discard name⟩
  obtain ⟨e, he, heq⟩ := List.mem_map.1 hmem
  exact absurd heq (by simpa using (List.mem_filter.1 he).2)

theorem mem_iff_get? (h : f.Distinct) : (name, m) ∈ f.members ↔ f.get? name = some m := by
  unfold Distinct at h
  unfold get?
  generalize f.members = l at h ⊢
  induction l with
  | nil => exact iff_of_false List.not_mem_nil nofun
  | cons e l ih =>
      obtain ⟨first, n⟩ := e
      obtain ⟨hnew, hl⟩ := List.nodup_cons.1 h
      rw [List.lookup_cons, List.mem_cons, Prod.mk.injEq, ih hl]
      by_cases hname : name = first
      · have hnone : l.lookup name = none := by
          rw [List.lookup_eq_none_iff]
          rintro ⟨other, n'⟩ hmem
          exact bne_iff_ne.2 fun heq => hnew (List.mem_map.2 ⟨_, hmem, heq.symm.trans hname⟩)
        rw [hnone, hname, beq_self_eq_true]
        simp [eq_comm]
      · rw [beq_false_of_ne hname]
        simp [hname]

theorem any_others_iff (h : f.Distinct) (p : AttributeMap → Bool) :
    ((f.others name).any fun (_, n) => p n) = true ↔
      ∃ other ≠ name, ∃ n, f.get? other = some n ∧ p n = true := by
  rw [List.any_eq_true]
  constructor
  · rintro ⟨⟨other, n⟩, hmem, hp⟩
    obtain ⟨hmem, hne⟩ := List.mem_filter.1 hmem
    exact ⟨other, by simpa using hne, n, (mem_iff_get? h).1 hmem, hp⟩
  · rintro ⟨other, hne, n, hget, hp⟩
    exact ⟨(other, n), List.mem_filter.2 ⟨(mem_iff_get? h).2 hget, by simpa using hne⟩, hp⟩

theorem indexShared_iff (h : f.Distinct) : (f.ownership name m).indexShared = true ↔
    ∃ other ≠ name, ∃ n, f.get? other = some n ∧ m.index = n.index := by
  rw [ownership, any_others_iff h m.sharesIndex]
  simp only [AttributeMap.sharesIndex, beq_iff_eq]

theorem not_sharesValue (h : f.Distinct) (hown : (f.ownership name m).valueShared key = false)
    (hother : other ≠ name) (hn : f.get? other = some n) : m.sharesValue n key = false := by
  cases hshares : m.sharesValue n key with
  | false => rfl
  | true =>
      have hany := (any_others_iff h fun n => m.sharesValue n key).2 ⟨other, hother, n, hn, hshares⟩
      exact absurd (hany.symm.trans hown) nofun

end Family

/-- The stamps of a map are older than this one. -/
structure AttributeMap.Below (clock : Stamp) (m : AttributeMap) : Prop where
  index_lt : m.index < clock
  stamp_lt : ∀ {key a}, m.attribute? key = some a → a.stamp < clock

namespace Copy

/-- The copy holds the attributes of the map, and neither has come from the future. -/
structure Mirrors (clock : Stamp) (next : Nat) (m : AttributeMap) (c : Copy) : Prop where
  values_eq : m.values = c.values
  below : m.Below clock
  tag_lt : c.tag < next

/-- What two maps share is the same to both, and the tags of their copies tell whether they share
the index. -/
structure Linked (m : AttributeMap) (c : Copy) (n : AttributeMap) (d : Copy) : Prop where
  entries_eq : m.index = n.index → m.entries = n.entries
  value_eq : ∀ {key a b}, m.attribute? key = some a → n.attribute? key = some b →
    a.stamp = b.stamp → a.value = b.value
  index_eq_iff : m.index = n.index ↔ c.tag = d.tag

variable {m n : AttributeMap} {c d : Copy} {clock clock' : Stamp} {next next' : Nat}

theorem Mirrors.mono (h : c.Mirrors clock next m) (hclock : clock ≤ clock') (hnext : next ≤ next') :
    c.Mirrors clock' next' m where
  values_eq := h.values_eq
  below := ⟨Nat.lt_of_lt_of_le h.below.index_lt hclock,
    fun ha => Nat.lt_of_lt_of_le (h.below.stamp_lt ha) hclock⟩
  tag_lt := Nat.lt_of_lt_of_le h.tag_lt hnext

theorem Linked.refl (m : AttributeMap) (c : Copy) : Linked m c m c where
  entries_eq _ := rfl
  value_eq ha hb _ := congrArg Attribute.value (Option.some.inj (ha.symm.trans hb))
  index_eq_iff := iff_of_true rfl rfl

theorem Linked.symm (h : Linked m c n d) : Linked n d m c where
  entries_eq heq := (h.entries_eq heq.symm).symm
  value_eq ha hb heq := (h.value_eq hb ha heq.symm).symm
  index_eq_iff := by rw [eq_comm, h.index_eq_iff, eq_comm]

theorem Linked.get?_eq (h : Linked m c n d) {key : Int64} (hshares : m.sharesValue n key = true) :
    m.get? key = n.get? key := by
  unfold AttributeMap.sharesValue at hshares
  split at hshares
  · rename_i a b ha hb
    rw [AttributeMap.get?, AttributeMap.get?, ha, hb]
    exact congrArg some (h.value_eq ha hb (beq_iff_eq.1 hshares))
  · cases hshares

end Copy

/-- A map and the copy of the same name. -/
structure Family.Holds (f : Family) (r : Copies) (name : String) (m : AttributeMap) (c : Copy) :
    Prop where
  get?_eq : f.get? name = some m
  copy?_eq : r.copy? name = some c

/-- A family holds the attributes that it would hold if nothing were shared, and what is shared is
the same to all. -/
structure Family.Follows (f : Family) (r : Copies) : Prop where
  distinct : f.Distinct
  same_names : ∀ name, (f.get? name).isSome = (r.copy? name).isSome
  mirrors : ∀ {name m c}, f.Holds r name m c → c.Mirrors f.clock r.next m
  linked : ∀ {name other m n c d}, f.Holds r name m c → f.Holds r other n d →
    Copy.Linked m c n d

namespace Family

namespace Follows

open Copy (Mirrors Linked)

variable {f : Family} {r : Copies} {name origin : String} {m n : AttributeMap} {c d : Copy}

theorem empty : Family.Follows {} {} where
  distinct := List.nodup_nil
  same_names _ := rfl
  mirrors h := nomatch h.get?_eq
  linked h := nomatch h.get?_eq

theorem exists_copy (h : f.Follows r) (hm : f.get? name = some m) : ∃ c, f.Holds r name m c := by
  have hcopy := h.same_names name
  rw [hm] at hcopy
  obtain ⟨c, hc⟩ := Option.isSome_iff_exists.1 hcopy.symm
  exact ⟨c, hm, hc⟩

theorem exists_member (h : f.Follows r) (hc : r.copy? name = some c) :
    ∃ m, f.Holds r name m c := by
  have hmember := h.same_names name
  rw [hc] at hmember
  obtain ⟨m, hm⟩ := Option.isSome_iff_exists.1 hmember
  exact ⟨m, hm, hc⟩

/-- A member is replaced. What it shares with the others has to be the same to them, and its tag has
to tell what it shares. -/
theorem replace (h : f.Follows r) {next : Nat} (hnext : r.next ≤ next)
    (hmirrors : c.Mirrors (f.clock + 1) next m)
    (hlinked : ∀ {other n d}, other ≠ name → f.Holds r other n d → Linked m c n d) :
    (f.replace name m).Follows ⟨Function.update r.copy? name (some c), next⟩ := by
  have hcases {other : String} {n : AttributeMap} {d : Copy}
      (hholds : (f.replace name m).Holds ⟨Function.update r.copy? name (some c), next⟩ other n d) :
      (n = m ∧ d = c) ∨ other ≠ name ∧ f.Holds r other n d := by
    obtain ⟨hn, hd⟩ := hholds
    dsimp only at hd
    by_cases hother : other = name
    · rw [hother, get?_replace_self, Option.some.injEq] at hn
      rw [hother, Function.update_self, Option.some.injEq] at hd
      exact .inl ⟨hn.symm, hd.symm⟩
    · rw [get?_replace_of_ne hother] at hn
      rw [Function.update_of_ne hother] at hd
      exact .inr ⟨hother, hn, hd⟩
  refine ⟨h.distinct.replace name m, fun other => ?_, fun hholds => ?_, fun hholds hholds' => ?_⟩
  · dsimp only
    by_cases hother : other = name
    · rw [hother, get?_replace_self, Function.update_self]
      rfl
    · rw [get?_replace_of_ne hother, Function.update_of_ne hother]
      exact h.same_names other
  · rcases hcases hholds with ⟨rfl, rfl⟩ | ⟨-, hold⟩
    · exact hmirrors
    · exact (h.mirrors hold).mono (Nat.le_succ _) hnext
  · rcases hcases hholds with ⟨rfl, rfl⟩ | ⟨hne, hold⟩
    · rcases hcases hholds' with ⟨rfl, rfl⟩ | ⟨hne', hold'⟩
      · exact .refl _ _
      · exact hlinked hne' hold'
    · rcases hcases hholds' with ⟨rfl, rfl⟩ | ⟨-, hold'⟩
      · exact (hlinked hne hold).symm
      · exact h.linked hold hold'

/-- A member takes over all objects of a member, which may be the one that it replaces. -/
theorem share (h : f.Follows r) (hholds : f.Holds r origin n c) (name : String)
    (hentries : m.entries = n.entries) (hindex : m.index = n.index) :
    (f.replace name m).Follows (r.put name (some c)) := by
  have hattribute (key : Int64) : m.attribute? key = n.attribute? key :=
    congrArg (SortedMap.get? · key) hentries
  obtain ⟨hvalues, ⟨hindex_lt, hstamp_lt⟩, htag⟩ := (h.mirrors hholds).mono (Nat.le_succ _) le_rfl
  refine h.replace le_rfl ⟨?_, ⟨?_, fun ha => ?_⟩, htag⟩ fun _ hother => ?_
  · rw [← hvalues, AttributeMap.values, hentries]
    rfl
  · rwa [hindex]
  · rw [hattribute] at ha
    exact hstamp_lt ha
  · obtain ⟨hsame, hvalue, htags⟩ := h.linked hholds hother
    refine ⟨fun heq => ?_, fun ha hb heq => ?_, ?_⟩
    · rw [hindex] at heq
      rw [hentries, hsame heq]
    · rw [hattribute] at ha
      exact hvalue ha hb heq
    · rw [hindex, htags]

/-- A new member shares nothing. -/
theorem create (h : f.Follows r) (name : String) (listening : Bool) :
    (f.create name listening).Follows (r.putFresh name .empty) := by
  refine h.replace (Nat.le_succ _) ⟨rfl, ⟨Nat.lt_succ_self _, nofun⟩, Nat.lt_succ_self _⟩ ?_
  intro other n d _ hother
  obtain ⟨-, ⟨hindex_lt, -⟩, htag⟩ := h.mirrors hother
  have hindex : f.clock ≠ n.index := Nat.ne_of_gt hindex_lt
  exact ⟨fun heq => absurd heq hindex, nofun, iff_of_false hindex (Nat.ne_of_gt htag)⟩

/-- A write leaves the index to the writer alone, and its values with those to whom they are the
same. -/
theorem rewrite {m' : AttributeMap} {values : SortedMap Int64 Value} (h : f.Follows r)
    (hholds : f.Holds r name m c) (hvalues : m'.values = values)
    (hwritten : m.Rewritten (f.ownership name m) m') :
    (f.replace name m').Follows (r.putFresh name values) := by
  obtain ⟨-, ⟨hindex_lt, hstamp_lt⟩, -⟩ := h.mirrors hholds
  have hfresh : (f.ownership name m).fresh = f.clock := rfl
  refine h.replace (Nat.le_succ _) ⟨hvalues, ⟨?_, fun ha => ?_⟩, Nat.lt_succ_self _⟩ ?_
  · rw [hwritten.index_eq, hfresh]
    split
    · exact Nat.lt_succ_self _
    · exact Nat.lt_succ_of_lt hindex_lt
  · rcases hwritten.object ha with hkept | hnew | ⟨-, b, hb, heq⟩
    · exact Nat.lt_succ_of_lt (hstamp_lt hkept)
    · rw [hnew, hfresh]
      exact Nat.lt_succ_self _
    · rw [← heq]
      exact Nat.lt_succ_of_lt (hstamp_lt hb)
  · intro other n d hother hn
    obtain ⟨-, ⟨hindex_lt', hstamp_lt'⟩, htag⟩ := h.mirrors hn
    have hindex : m'.index ≠ n.index := by
      rw [hwritten.index_eq, hfresh]
      split
      · exact Nat.ne_of_gt hindex_lt'
      · rename_i hunshared
        exact fun heq => hunshared
          ((indexShared_iff h.distinct).2 ⟨other, hother, n, hn.get?_eq, heq⟩)
    refine ⟨fun heq => absurd heq hindex, fun {key a b} ha hb heq => ?_,
      iff_of_false hindex (Nat.ne_of_gt htag)⟩
    rcases hwritten.object ha with hkept | hnew | ⟨hunshared, b', hb', hstamp⟩
    · exact (h.linked hholds hn).value_eq hkept hb heq
    · rw [hnew, hfresh] at heq
      exact absurd heq (Nat.ne_of_gt (hstamp_lt' hb))
    · have hshares := not_sharesValue h.distinct hunshared hother hn.get?_eq
      rw [AttributeMap.sharesValue, hb', hb] at hshares
      exact absurd (hstamp.trans heq) (by simpa using hshares)

theorem discard (h : f.Follows r) (name : String) : (f.discard name).Follows (r.put name none) := by
  have hkept {other : String} {n : AttributeMap} {d : Copy}
      (hholds : (f.discard name).Holds (r.put name none) other n d) : f.Holds r other n d := by
    obtain ⟨hn, hd⟩ := hholds
    rw [get?_discard] at hn
    split at hn
    · cases hn
    · rename_i hother
      dsimp only [Copies.put] at hd
      rw [Function.update_of_ne hother] at hd
      exact ⟨hn, hd⟩
  refine ⟨h.distinct.discard name, fun other => ?_, fun hholds => h.mirrors (hkept hholds),
    fun hholds hholds' => h.linked (hkept hholds) (hkept hholds')⟩
  dsimp only [Copies.put]
  rw [get?_discard]
  split
  · rename_i hother
    rw [hother, Function.update_self]
    rfl
  · rename_i hother
    rw [Function.update_of_ne hother]
    exact h.same_names other

theorem copy?_eq_none (h : f.Follows r) (hm : f.get? name = none) : r.copy? name = none := by
  have hcopy := h.same_names name
  rw [hm] at hcopy
  exact Option.isSome_eq_false_iff.1 hcopy.symm |> Option.isNone_iff_eq_none.1

theorem put_eq_self (hc : r.copy? name = some c) : r.put name (some c) = r := by
  rw [Copies.put, ← hc, Function.update_eq_self]

theorem after (h : f.Follows r) (action : Action) : (f.after action).Follows (r.after action) := by
  cases action with
  | create name listening => exact h.create name listening
  | fork origin name listening =>
      rw [Family.after, Family.fork, Copies.after]
      cases hn : f.get? origin with
      | none =>
          rw [h.copy?_eq_none hn]
          exact h
      | some n =>
          obtain ⟨c, hholds⟩ := h.exists_copy hn
          rw [hholds.copy?_eq]
          exact h.share hholds name rfl rfl
  | listen name listening =>
      rw [Family.after, Family.listen, Copies.after]
      cases hm : f.get? name with
      | none => exact h
      | some m =>
          obtain ⟨c, hholds⟩ := h.exists_copy hm
          rw [← put_eq_self hholds.copy?_eq]
          exact h.share hholds name rfl rfl
  | write name w =>
      rw [Family.after, Family.update, Copies.after]
      cases hm : f.get? name with
      | none =>
          rw [h.copy?_eq_none hm]
          exact h
      | some m =>
          obtain ⟨c, hholds⟩ := h.exists_copy hm
          rw [hholds.copy?_eq]
          dsimp only [Option.map_some, Option.getD_some]
          rw [← (h.mirrors hholds).values_eq]
          cases heffect : w.effect? m.values with
          | none =>
              obtain ⟨hentries, hindex⟩ := w.on_of_no_effect (f.ownership name m) heffect
              dsimp only
              rw [← put_eq_self hholds.copy?_eq]
              exact h.share hholds name hentries hindex
          | some values =>
              obtain ⟨hvalues, hwritten⟩ := w.on_of_effect (f.ownership name m) heffect
              exact h.rewrite hholds hvalues hwritten
  | discard name => exact h.discard name

theorem run (h : f.Follows r) (actions : List Action) :
    (f.run actions).Follows (r.run actions) := by
  induction actions generalizing f r with
  | nil => exact h
  | cons action actions ih => exact ih (h.after action)

/-- What can be asked of a map alone is answered alike if it can be asked of its attributes. -/
theorem answers {α : Type} (h : f.Follows r) (ask : SortedMap Int64 Value → α) (name : String) :
    (f.get? name).map (fun m => ask m.values) = (r.copy? name).map fun c => ask c.values := by
  cases hm : f.get? name with
  | none =>
      rw [h.copy?_eq_none hm]
      rfl
  | some m =>
      obtain ⟨c, hholds⟩ := h.exists_copy hm
      rw [hholds.copy?_eq, Option.map_some, (h.mirrors hholds).values_eq]
      rfl

theorem indexShared_iff_exists_tag (h : f.Follows r) (hm : f.Holds r name m c) :
    (f.ownership name m).indexShared = true ↔
      ∃ other ≠ name, ∃ d, r.copy? other = some d ∧ c.tag = d.tag := by
  rw [indexShared_iff h.distinct]
  constructor
  · rintro ⟨other, hother, n, hn, hindex⟩
    obtain ⟨d, hd⟩ := h.exists_copy hn
    exact ⟨other, hother, d, hd.copy?_eq, (h.linked hm hd).index_eq_iff.1 hindex⟩
  · rintro ⟨other, hother, d, hd, htag⟩
    obtain ⟨n, hn⟩ := h.exists_member hd
    exact ⟨other, hother, n, hn.get?_eq, (h.linked hm hn).index_eq_iff.2 htag⟩

end Follows

/-- After any calls, the members answer as if every fork had copied the attributes of its origin,
and a call is refused as it would be there. A load brings the records that the buffer spells, and an
edit that finds no collection of its type begins with one without items. Two members share an index
exactly if their tags are equal, so the flag of a member tells whether there is another one with its
tag. What two members share, an index or a value, is the same to both. -/
theorem forks_are_copies (actions : List Action) :
    let f := ({} : Family).run actions
    let r := ({} : Copies).run actions
    (∀ name, (f.get? name).map AttributeMap.get? = (r.copy? name).map Copy.get?) ∧
    (∀ name, (f.get? name).map AttributeMap.type? = (r.copy? name).map Copy.type?) ∧
    (∀ name, (f.get? name).map AttributeMap.size = (r.copy? name).map Copy.size) ∧
    (∀ name, (f.get? name).map AttributeMap.toList = (r.copy? name).map Copy.toList) ∧
    (∀ (w : Write) own m, (w.on own m).1.isOk = w.accepted) ∧
    (∀ buffer records, AttributeMap.Spells buffer records ↔
      buffer.spelled? AttributeMap.Spells = some records) ∧
    (∀ ty c, Collection.empty? ty = some c → c.type = ty ∧ c.itemCount = 0) ∧
    (∀ name other m n c d, f.Holds r name m c → f.Holds r other n d →
      (m.sharesIndex n = true ↔ c.tag = d.tag)) ∧
    (∀ name m c, f.Holds r name m c → ((f.ownership name m).indexShared = true ↔
      ∃ other ≠ name, ∃ d, r.copy? other = some d ∧ c.tag = d.tag)) ∧
    ∀ name other m n c d, f.Holds r name m c → f.Holds r other n d →
      (m.sharesIndex n = true → m.entries = n.entries) ∧
      ∀ key, m.sharesValue n key = true → m.get? key = n.get? key := by
  intro f r
  have h : f.Follows r := Follows.empty.run actions
  have hget (m : AttributeMap) (key : Int64) : m.get? key = m.values.get? key :=
    (SortedMap.get?_mapValues m.entries).symm
  have hsize (m : AttributeMap) : m.size = m.values.size := (List.length_map _).symm
  refine ⟨fun name => ?_, fun name => ?_, fun name => ?_, h.answers SortedMap.entries,
    Write.isOk_on, fun buffer records => AttributeMap.spelled?_eq_some_iff.symm,
    fun ty c hc => ⟨Collection.type_of_empty? hc, Collection.itemCount_of_empty? hc⟩,
    fun name other m n c d hm hn => ?_, fun name m c hm => h.indexShared_iff_exists_tag hm,
    fun name other m n c d hm hn => ?_⟩
  · rw [funext₂ hget]
    exact h.answers SortedMap.get? name
  · have htype (m : AttributeMap) (key : Int64) :
        m.type? key = (m.values.get? key).map Value.type := by
      rw [AttributeMap.type?, hget]
    rw [funext₂ htype]
    exact h.answers (fun values key => (values.get? key).map Value.type) name
  · rw [funext hsize]
    exact h.answers SortedMap.size name
  · rw [AttributeMap.sharesIndex, beq_iff_eq]
    exact (h.linked hm hn).index_eq_iff
  · have hlinked := h.linked hm hn
    exact ⟨fun hshares => hlinked.entries_eq (beq_iff_eq.1 hshares),
      fun key hshares => hlinked.get?_eq hshares⟩

/-- A writer leaves the forks of its fork together. -/
example :
    let f := ({} : Family).run
      [ .create "a" false, .write "a" (.set 1 .long (.int 5)), .fork "a" "b" false,
        .fork "b" "c" false, .write "a" (.remove 1) ]
    (f.members.map fun e => (e.1, e.2.get? 1, (f.ownership e.1 e.2).indexShared)) =
      [("a", none, false), ("c", some (.long 5), true), ("b", some (.long 5), true)] := by
  decide +kernel

end Family

end ChunkCache
