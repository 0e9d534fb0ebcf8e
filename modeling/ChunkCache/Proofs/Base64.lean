import ChunkCache.Base64

namespace ChunkCache

theorem exists_of_bind_eq_ok {ε α β : Type} {r : Except ε α} {f : α → Except ε β} {b : β}
    (h : (r >>= f) = .ok b) : ∃ a, r = .ok a ∧ f a = .ok b := by
  cases r with
  | error e => cases h
  | ok a => exact ⟨a, rfl, h⟩

namespace Base64

variable {bs : Bytes} {vs seen : List (Fin 64)} {b : UInt8} {offset start : Nat}

theorem value?_symbol (v : Fin 64) : value? (symbol v) = some v := by
  revert v
  decide +kernel

theorem symbol_ne_pad (v : Fin 64) : symbol v ≠ pad := by
  revert v
  decide +kernel

theorem val_lastSix (n : Nat) : (lastSix n).val = n % 64 := rfl

def sextets : Bytes → List (Fin 64)
  | a :: b :: c :: rest =>
    let n := a.toNat * 65536 + b.toNat * 256 + c.toNat
    lastSix (n / 262144) :: lastSix (n / 4096) :: lastSix (n / 64) :: lastSix n :: sextets rest
  | [a, b] =>
    let n := a.toNat * 1024 + b.toNat * 4
    [lastSix (n / 4096), lastSix (n / 64), lastSix n]
  | [a] =>
    let n := a.toNat * 16
    [lastSix (n / 64), lastSix n]
  | [] => []

theorem encode_eq (bs : Bytes) : encode bs = (sextets bs).map symbol := by
  induction bs using sextets.induct with
  | case1 a b c rest ih =>
      simp only [encode, sextets, List.map_cons, ih]
      rfl
  | case2 a b => rfl
  | case3 a => rfl
  | case4 => rfl

theorem sextets_ne_nil (h : bs ≠ []) : sextets bs ≠ [] := by
  induction bs using sextets.induct with
  | case4 => exact absurd rfl h
  | _ => simp [sextets]

theorem ofNat_eq {n : Nat} (h : n % 256 = b.toNat) : UInt8.ofNat n = b := by
  apply UInt8.toNat_inj.1
  rw [UInt8.toNat_ofNat']
  exact h

theorem pack_sextets (bs : Bytes) : pack (sextets bs) = bs := by
  induction bs using sextets.induct with
  | case1 a b c rest ih =>
      have ha := a.toNat_lt
      have hb := b.toNat_lt
      have hc := c.toNat_lt
      simp only [sextets, pack, ih, val_lastSix, List.cons.injEq, and_true]
      exact ⟨ofNat_eq (by omega), ofNat_eq (by omega), ofNat_eq (by omega)⟩
  | case2 a b =>
      have ha := a.toNat_lt
      have hb := b.toNat_lt
      simp only [sextets, pack, val_lastSix, List.cons.injEq, and_true]
      exact ⟨ofNat_eq (by omega), ofNat_eq (by omega)⟩
  | case3 a =>
      have ha := a.toNat_lt
      simp only [sextets, pack, val_lastSix, List.cons.injEq, and_true]
      exact ofNat_eq (by omega)
  | case4 => rfl

section Groups

def tail (vs : List (Fin 64)) : List (Fin 64) := vs.drop (lastGroup vs.length)

theorem tail_of_short (h : vs.length ≤ 4) : tail vs = vs := by
  have hstart : lastGroup vs.length = 0 := by
    simp only [lastGroup]
    omega
  rw [tail, hstart, List.drop_zero]

theorem tail_of_whole (p q r s : Fin 64) (h : vs ≠ []) :
    tail (p :: q :: r :: s :: vs) = tail vs := by
  have hpos : 0 < vs.length := List.length_pos_iff.2 h
  have hstart : lastGroup (p :: q :: r :: s :: vs).length = lastGroup vs.length + 4 := by
    simp only [lastGroup, List.length_cons]
    omega
  rw [tail, hstart]
  rfl

/-- The last group of a written form has two symbols or more, and no bits beyond the bytes. -/
theorem tail_sextets (h : bs ≠ []) :
    2 ≤ (tail (sextets bs)).length ∧ spareBitsZero (tail (sextets bs)) = true := by
  induction bs using sextets.induct with
  | case1 a b c rest ih =>
      cases rest with
      | nil =>
          rw [tail_of_short (by simp [sextets])]
          simp [sextets, spareBitsZero]
      | cons d rest =>
          rw [sextets, tail_of_whole _ _ _ _ (sextets_ne_nil (List.cons_ne_nil _ _))]
          exact ih (List.cons_ne_nil _ _)
  | case2 a b =>
      rw [tail_of_short (by simp [sextets])]
      refine ⟨by simp [sextets], ?_⟩
      simp only [sextets, spareBitsZero, val_lastSix, beq_iff_eq]
      omega
  | case3 a =>
      rw [tail_of_short (by simp [sextets])]
      refine ⟨by simp [sextets], ?_⟩
      simp only [sextets, spareBitsZero, val_lastSix, beq_iff_eq]
      omega
  | case4 => exact absurd rfl h

end Groups

theorem values_map_symbol (offset : Nat) (vs : List (Fin 64)) :
    values offset (vs.map symbol) = .ok vs := by
  induction vs generalizing offset with
  | nil => rfl
  | cons v vs ih =>
      simp only [List.map_cons, values, value?_symbol, ih]
      rfl

theorem lastValues_map_symbol :
    lastValues start seen none (vs.map symbol) = .ok (seen ++ vs, false) := by
  induction vs generalizing seen with
  | nil => simp [lastValues]
  | cons v vs ih =>
      simp only [List.map_cons, lastValues, if_neg (symbol_ne_pad v), value?_symbol, ih,
        List.append_assoc, List.singleton_append]

theorem checkLoneByte_map_symbol : checkLoneByte (vs.map symbol) = .ok () := by
  rw [checkLoneByte, List.getLast?_map]
  cases vs.getLast? with
  | none => rfl
  | some v => simp [value?_symbol]

theorem decode_encode (bs : Bytes) : decode (encode bs) = .ok bs := by
  have htake : (encode bs).take (lastGroup (encode bs).length) =
      ((sextets bs).take (lastGroup (sextets bs).length)).map symbol := by
    rw [encode_eq, List.length_map, List.map_take]
  have hdrop : (encode bs).drop (lastGroup (encode bs).length) =
      (tail (sextets bs)).map symbol := by
    rw [encode_eq, List.length_map, tail, List.map_drop]
  have hlone : checkLoneByte (encode bs) = .ok () := by
    rw [encode_eq]
    exact checkLoneByte_map_symbol
  have hwhole : (sextets bs).take (lastGroup (sextets bs).length) ++ tail (sextets bs) =
      sextets bs := List.take_append_drop ..
  simp only [decode, hlone, htake, hdrop, values_map_symbol, lastValues_map_symbol, bind,
    Except.bind, List.nil_append, hwhole, pack_sextets]
  by_cases hbs : bs = []
  · subst hbs
    rfl
  · obtain ⟨hlength, hspare⟩ := tail_sextets hbs
    rw [if_neg (by omega), if_neg Bool.false_ne_true, if_pos hspare]

theorem mem_encode (h : b ∈ encode bs) : ∃ v, symbol v = b := by
  rw [encode_eq] at h
  obtain ⟨v, -, hv⟩ := List.mem_map.1 h
  exact ⟨v, hv⟩

theorem encode_ne_nil (h : bs ≠ []) : encode bs ≠ [] := by
  rw [encode_eq]
  exact fun hnil => sextets_ne_nil h (List.map_eq_nil_iff.1 hnil)

section Strictness

variable {raw : Bytes} {v : Fin 64}

theorem symbol_of_value? (h : value? b = some v) : symbol v = b := by
  have hall : ∀ n : Fin 256, (value? (UInt8.ofFin n)).all (symbol · == UInt8.ofFin n) = true := by
    decide +kernel
  have hb : (value? b).all (symbol · == b) = true := hall b.toFin
  rwa [h, Option.all_some, beq_iff_eq] at hb

theorem map_symbol_of_values (h : values offset bs = .ok vs) : vs.map symbol = bs := by
  induction bs generalizing offset vs with
  | nil =>
      cases h
      rfl
  | cons b bs ih =>
      rw [values] at h
      split at h
      · cases h
      · rename_i v hv
        cases hrest : values (offset + 1) bs with
        | error e =>
            rw [hrest] at h
            cases h
        | ok rest =>
            rw [hrest] at h
            cases h
            rw [List.map_cons, symbol_of_value? hv, ih hrest]

theorem padded_of_lastValues {padAt : Nat} {r : List (Fin 64) × Bool}
    (h : lastValues start seen (some padAt) bs = .ok r) : r.2 = true := by
  induction bs with
  | nil =>
      cases h
      rfl
  | cons b bs ih =>
      rw [lastValues] at h
      split at h
      · exact ih h
      · cases h

theorem map_symbol_of_lastValues {last : List (Fin 64)}
    (h : lastValues start seen none bs = .ok (last, false)) :
    last.map symbol = seen.map symbol ++ bs := by
  induction bs generalizing seen with
  | nil =>
      cases h
      rw [List.append_nil]
  | cons b bs ih =>
      rw [lastValues] at h
      split at h
      · split at h
        · cases h
        · cases padded_of_lastValues h
      · split at h
        · cases h
        · rename_i v hv
          rw [ih h, List.map_append, List.append_assoc, List.map_singleton, symbol_of_value? hv,
            List.singleton_append]

/-- The last group has two symbols or more and no bits beyond the bytes, if there is one. -/
def Closed (vs : List (Fin 64)) : Prop :=
  vs ≠ [] → 2 ≤ (tail vs).length ∧ spareBitsZero (tail vs) = true

theorem lastSix_eq {n : Nat} (h : n % 64 = v.val) : lastSix n = v := Fin.ext h

theorem sextets_pack (h : Closed vs) : sextets (pack vs) = vs := by
  induction vs using pack.induct with
  | case1 p q r s rest ih =>
      have hrest : Closed rest := fun hne => tail_of_whole p q r s hne ▸ h (List.cons_ne_nil _ _)
      simp only [pack, sextets, ih hrest, UInt8.toNat_ofNat', List.cons.injEq, and_true]
      exact ⟨lastSix_eq (by omega), lastSix_eq (by omega), lastSix_eq (by omega),
        lastSix_eq (by omega)⟩
  | case2 p q r =>
      have hspare := (h (List.cons_ne_nil _ _)).2
      rw [tail_of_short (by simp), spareBitsZero, beq_iff_eq] at hspare
      simp only [pack, sextets, UInt8.toNat_ofNat', List.cons.injEq, and_true]
      exact ⟨lastSix_eq (by omega), lastSix_eq (by omega), lastSix_eq (by omega)⟩
  | case3 p q =>
      have hspare := (h (List.cons_ne_nil _ _)).2
      rw [tail_of_short (by simp), spareBitsZero, beq_iff_eq] at hspare
      simp only [pack, sextets, UInt8.toNat_ofNat', List.cons.injEq, and_true]
      exact ⟨lastSix_eq (by omega), lastSix_eq (by omega)⟩
  | case4 vs hfour hthree htwo =>
      rcases vs with _ | ⟨p, _ | ⟨q, _ | ⟨r, _ | ⟨s, rest⟩⟩⟩⟩
      · rfl
      · have hlength := (h (List.cons_ne_nil _ _)).1
        rw [tail_of_short (by simp), List.length_singleton] at hlength
        omega
      · cases htwo p q rfl
      · cases hthree p q r rfl
      · cases hfour p q r s rest rfl

theorem exists_of_decode (h : decode bs = .ok raw) :
    ∃ vs, vs.map symbol = bs ∧ Closed vs ∧ pack vs = raw := by
  obtain ⟨-, -, h⟩ := exists_of_bind_eq_ok h
  obtain ⟨whole, hwhole, h⟩ := exists_of_bind_eq_ok h
  obtain ⟨⟨last, padded⟩, hlast, h⟩ := exists_of_bind_eq_ok h
  dsimp only at h
  split at h
  · cases h
  rename_i hlong
  split at h
  · cases h
  rename_i hpadded
  split at h
  case isFalse => cases h
  rename_i hspare
  rw [Bool.not_eq_true] at hpadded
  subst hpadded
  have hhead := map_symbol_of_values hwhole
  have hbs : (whole ++ last).map symbol = bs := by
    rw [List.map_append, hhead, map_symbol_of_lastValues hlast]
    exact List.take_append_drop _ bs
  have htail : tail (whole ++ last) = last := by
    have hlength : (whole ++ last).length = bs.length := by rw [← hbs, List.length_map]
    have hstart : lastGroup bs.length ≤ bs.length := by
      simp only [lastGroup]
      omega
    have hwhole : whole.length = lastGroup bs.length := by
      rw [← Nat.min_eq_left hstart, ← List.length_take, ← hhead, List.length_map]
    rw [tail, hlength, ← hwhole, List.drop_left]
  refine ⟨whole ++ last, hbs, fun hne => ?_, Except.ok.inj h⟩
  rw [htail]
  have hbs : bs ≠ [] := fun hnil => hne (List.map_eq_nil_iff.1 (hbs.trans hnil))
  exact ⟨Nat.le_of_not_lt fun hshort => hlong ⟨hbs, hshort⟩, hspare⟩

theorem encode_of_decode (h : decode bs = .ok raw) : encode raw = bs := by
  obtain ⟨vs, hbs, hclosed, hraw⟩ := exists_of_decode h
  rw [encode_eq, ← hraw, sextets_pack hclosed, hbs]

/-- A text is readable only in the form in which it is written. -/
theorem decode_eq_ok_iff : decode bs = .ok raw ↔ bs = encode raw :=
  ⟨fun h => (encode_of_decode h).symm, fun h => h ▸ decode_encode raw⟩

end Strictness

end Base64

end ChunkCache
