import Mathlib.Algebra.Order.Ring.Nat
import ChunkCache.Bytes

namespace ChunkCache.Bytes

variable {sep b : UInt8} {bs head tail : Bytes} {pieces : List Bytes}

theorem splitOn_of_not_mem (h : sep ∉ bs) : splitOn sep bs = [bs] := by
  induction bs with
  | nil => rfl
  | cons b bs ih =>
      obtain ⟨hb, hbs⟩ := List.ne_and_not_mem_of_not_mem_cons h
      rw [splitOn, if_neg hb.symm, ih hbs]

theorem splitOn_append (h : sep ∉ head) :
    splitOn sep (head ++ sep :: tail) = head :: splitOn sep tail := by
  induction head with
  | nil => exact if_pos rfl
  | cons b head ih =>
      obtain ⟨hb, hhead⟩ := List.ne_and_not_mem_of_not_mem_cons h
      rw [List.cons_append, splitOn, if_neg hb.symm, ih hhead]

theorem splitOn_joinWith (hne : pieces ≠ []) (h : ∀ piece ∈ pieces, sep ∉ piece) :
    splitOn sep (joinWith sep pieces) = pieces := by
  induction pieces with
  | nil => exact absurd rfl hne
  | cons piece rest ih =>
      have hpiece : sep ∉ piece := h piece List.mem_cons_self
      cases rest with
      | nil => exact splitOn_of_not_mem hpiece
      | cons next rest =>
          have hrest := ih (List.cons_ne_nil _ _) fun p hp => h p (List.mem_cons_of_mem _ hp)
          rw [joinWith, splitOn_append hpiece, hrest]
          exact List.cons_ne_nil _ _

theorem splitOnce_append (h : sep ∉ head) :
    splitOnce sep (head ++ sep :: tail) = some (head, tail) := by
  induction head with
  | nil => exact if_pos rfl
  | cons b head ih =>
      obtain ⟨hb, hhead⟩ := List.ne_and_not_mem_of_not_mem_cons h
      rw [List.cons_append, splitOnce, if_neg hb.symm, ih hhead]
      rfl

theorem eq_append_of_splitOnce (h : splitOnce sep bs = some (head, tail)) :
    bs = head ++ sep :: tail := by
  induction bs generalizing head with
  | nil => cases h
  | cons b bs ih =>
      rw [splitOnce] at h
      split at h
      · rename_i hb
        cases h
        rw [hb, List.nil_append]
      · obtain ⟨⟨first, rest⟩, hrest, heq⟩ := Option.map_eq_some_iff.1 h
        cases heq
        rw [ih hrest, List.cons_append]

theorem mem_joinWith (h : b ∈ joinWith sep pieces) : b = sep ∨ ∃ piece ∈ pieces, b ∈ piece := by
  induction pieces with
  | nil => exact absurd h List.not_mem_nil
  | cons piece rest ih =>
      cases rest with
      | nil => exact .inr ⟨piece, List.mem_cons_self, h⟩
      | cons next rest =>
          rcases List.mem_append.1 h with h | h
          · exact .inr ⟨piece, List.mem_cons_self, h⟩
          · rcases List.mem_cons.1 h with h | h
            · exact .inl h
            · apply (ih h).imp_right
              rintro ⟨p, hp, hb⟩
              exact ⟨p, List.mem_cons_of_mem _ hp, hb⟩

theorem joinWith_ne_nil {piece : Bytes} (h : piece ≠ []) : joinWith sep (piece :: pieces) ≠ [] := by
  cases pieces with
  | nil => exact h
  | cons next rest => exact List.append_ne_nil_of_left_ne_nil h _

theorem ofLittleEndian_littleEndian (width n : Nat) :
    ofLittleEndian (littleEndian width n) = n % 256 ^ width := by
  induction width generalizing n with
  | zero => simp [littleEndian, ofLittleEndian, Nat.mod_one]
  | succ width ih =>
      simp only [littleEndian, ofLittleEndian, ih, UInt8.toNat_ofNat']
      have hpow : 256 ^ (width + 1) = 256 * 256 ^ width := by rw [Nat.pow_succ, Nat.mul_comm]
      rw [hpow]
      exact (Nat.mod_mul).symm

theorem ofLittleEndian_lt (bs : Bytes) : ofLittleEndian bs < 256 ^ bs.length := by
  induction bs with
  | nil => exact Nat.one_pos
  | cons b bs ih =>
      have hb := b.toNat_lt
      rw [ofLittleEndian, List.length_cons, Nat.pow_succ]
      omega

theorem littleEndian_ofLittleEndian (bs : Bytes) :
    littleEndian bs.length (ofLittleEndian bs) = bs := by
  induction bs with
  | nil => rfl
  | cons b bs ih =>
      have hb := b.toNat_lt
      have hfirst : UInt8.ofNat (b.toNat + 256 * ofLittleEndian bs) = b := by
        apply UInt8.toNat_inj.1
        rw [UInt8.toNat_ofNat']
        omega
      have hrest : (b.toNat + 256 * ofLittleEndian bs) / 256 = ofLittleEndian bs := by omega
      rw [ofLittleEndian, List.length_cons, littleEndian, hfirst, hrest, ih]

theorem ofBigEndian_lt (bs : Bytes) : ofBigEndian bs < 256 ^ bs.length := by
  have hlt := ofLittleEndian_lt bs.reverse
  rwa [List.length_reverse] at hlt

theorem bigEndian_ofBigEndian (bs : Bytes) : bigEndian bs.length (ofBigEndian bs) = bs := by
  have hdigits := littleEndian_ofLittleEndian bs.reverse
  rw [List.length_reverse] at hdigits
  rw [bigEndian, ofBigEndian, hdigits, List.reverse_reverse]

theorem ofBigEndian_bigEndian (width n : Nat) :
    ofBigEndian (bigEndian width n) = n % 256 ^ width := by
  simp [ofBigEndian, bigEndian, ofLittleEndian_littleEndian]

end ChunkCache.Bytes
