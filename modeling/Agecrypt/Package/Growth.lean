import Agecrypt.Package.Memio
import Mathlib.Data.Nat.Log
import Mathlib.Tactic.NormNum

/-!
# How a sink grows

`memwrite` doubles the capacity of a sink, 4096 bytes at first, until there
is room for what is written.  So the capacity goes by the number of bytes
that the sink holds, and a write that asks for more than `2 ^ 63` bytes is
refused.
-/

namespace Agecrypt

/-- How often 4096 is doubled to make room for `n` bytes. -/
def doublings (n : Nat) : Nat := Nat.clog 2 ((n + 4095) / 4096)

/-- The capacity of a sink that holds `n` bytes. -/
def capacity (n : Nat) : Nat := if n = 0 then 0 else 4096 * 2 ^ doublings n

theorem doublings_le {n j : Nat} : doublings n ≤ j ↔ n ≤ 4096 * 2 ^ j := by
  rw [doublings, Nat.clog_le_iff_le_pow Nat.one_lt_two]
  generalize 2 ^ j = m
  omega

theorem doublings_mono {m n : Nat} (h : m ≤ n) : doublings m ≤ doublings n :=
  doublings_le.mpr (Nat.le_trans h (doublings_le.mp (Nat.le_refl _)))

theorem capacity_of_pos {n : Nat} (h : 0 < n) : capacity n = 4096 * 2 ^ doublings n :=
  if_neg (Nat.ne_of_gt h)

theorem le_capacity (n : Nat) : n ≤ capacity n := by
  rcases Nat.eq_zero_or_pos n with rfl | hpos
  · exact Nat.zero_le _
  · rw [capacity_of_pos hpos]
    exact doublings_le.mp (Nat.le_refl _)

/-- More bytes that fit into the block ask for no other. -/
theorem capacity_of_le {m n : Nat} (hmn : m ≤ n) (h : n ≤ capacity m) :
    capacity n = capacity m := by
  rcases Nat.eq_zero_or_pos m with rfl | hpos
  · rw [Nat.le_zero.mp h]
  · rw [capacity_of_pos hpos] at h
    rw [capacity_of_pos hpos, capacity_of_pos (Nat.lt_of_lt_of_le hpos hmn)]
    have hle : doublings n ≤ doublings m := doublings_le.mpr h
    rw [Nat.le_antisymm hle (doublings_mono hmn)]

theorem pow_51 : 4096 * 2 ^ 51 = 2 ^ 63 := by norm_num

theorem capacity_le {n : Nat} (h : n ≤ 2 ^ 63) : capacity n ≤ 2 ^ 63 := by
  rw [capacity]
  split
  · exact Nat.zero_le _
  · rw [← pow_51] at h ⊢
    exact Nat.mul_le_mul_left 4096 (Nat.pow_le_pow_right (by decide) (doublings_le.mpr h))

/-- The loop doubles until there is room, and gives up above `2 ^ 63`. -/
theorem memgrow_spec {need : Nat} (fuel : Nat) : ∀ {j : Nat}, j ≤ 51 → 51 ≤ j + fuel →
    memgrow need fuel (4096 * 2 ^ j) =
      if need ≤ 2 ^ 63 then some (4096 * 2 ^ max j (doublings need)) else none := by
  -- a block of this size is enough
  have henough : ∀ {j : Nat}, j ≤ 51 → ¬ 4096 * 2 ^ j < need →
      some (4096 * 2 ^ j) =
        if need ≤ 2 ^ 63 then some (4096 * 2 ^ max j (doublings need)) else none := by
    intro j hj hroom
    have hd : doublings need ≤ j := doublings_le.mpr (Nat.not_lt.mp hroom)
    have hle : need ≤ 2 ^ 63 := by
      rw [← pow_51]
      exact doublings_le.mp (Nat.le_trans hd hj)
    rw [if_pos hle, Nat.max_eq_left hd]
  induction fuel with
  | zero =>
    intro j hj hfuel
    obtain rfl : j = 51 := by omega
    rw [memgrow]
    split
    · rename_i hlt
      rw [pow_51] at hlt
      rw [if_neg (Nat.not_le.mpr hlt)]
    · rename_i hroom
      exact henough hj hroom
  | succ fuel ih =>
    intro j hj hfuel
    rw [memgrow]
    split
    · rename_i hlt
      have hd : j < doublings need :=
        Nat.not_le.mp fun hle => Nat.not_le.mpr hlt (doublings_le.mp hle)
      have hhalf : (2 ^ 64 - 1) / 2 < 4096 * 2 ^ j ↔ 51 ≤ j := by
        have hpow : 2 ^ 63 ≤ 4096 * 2 ^ j ↔ 51 ≤ j := by
          rw [← pow_51, Nat.mul_le_mul_left_iff (by decide),
            Nat.pow_le_pow_iff_right Nat.one_lt_two]
        rw [← hpow]
        exact Nat.lt_iff_add_one_le
      split
      · rename_i hmax
        obtain rfl : j = 51 := Nat.le_antisymm hj (hhalf.mp hmax)
        rw [pow_51] at hlt
        rw [if_neg (Nat.not_le.mpr hlt)]
      · rename_i hmax
        have hj' : j + 1 ≤ 51 := Nat.not_le.mp fun hle => hmax (hhalf.mpr hle)
        rw [Nat.mul_assoc, ← Nat.pow_succ, ih hj' (by omega), Nat.max_eq_right hd,
          Nat.max_eq_right (Nat.le_of_lt hd)]
    · rename_i hroom
      exact henough hj hroom

/-- What `memwrite` asks for, with a block of the right capacity. -/
theorem memneed_spec {t : Memtab} {i : Fin MEMFD_MAX} {n : Nat}
    (hcap : (t i).cap = capacity (t i).data.length) (hlen : (t i).data.length ≤ 2 ^ 63)
    (hn : n < 2 ^ 64) :
    memneed i n t =
      if (t i).data.length + n ≤ 2 ^ 63 then
        if (t i).data.length + n ≤ capacity (t i).data.length then .fits
        else .realloc (capacity ((t i).data.length + n))
      else .overflow := by
  have hgrow : ∀ need, capacity (t i).data.length < need → (t i).data.length ≤ need →
      memgrow need 64 (if (t i).cap ≠ 0 then (t i).cap else 4096) =
        if need ≤ 2 ^ 63 then some (capacity need) else none := by
    intro need hlt hle
    have hneed : 0 < need := Nat.lt_of_le_of_lt (Nat.zero_le _) hlt
    rw [hcap, capacity_of_pos hneed]
    rcases Nat.eq_zero_or_pos (t i).data.length with hzero | hpos
    · rw [hzero, capacity, if_pos rfl, if_neg (not_not.mpr rfl)]
      have hspec := @memgrow_spec need 64 0 (Nat.zero_le 51) (by decide)
      rwa [Nat.pow_zero, Nat.mul_one, Nat.zero_max] at hspec
    · have hd : doublings (t i).data.length ≤ 51 := by
        rw [doublings_le, pow_51]
        exact hlen
      have hne : capacity (t i).data.length ≠ 0 := by
        have := le_capacity (t i).data.length
        omega
      rw [if_pos hne, capacity_of_pos hpos, memgrow_spec 64 hd (by omega),
        Nat.max_eq_right (doublings_mono hle)]
  have hbound := capacity_le hlen
  rw [memneed]
  by_cases hwrap : (t i).data.length + n < 2 ^ 64
  · rw [Nat.mod_eq_of_lt hwrap, if_neg (by omega)]
    by_cases hfits : (t i).data.length + n ≤ capacity (t i).data.length
    · rw [hcap, if_neg (Nat.not_lt.mpr hfits), if_pos (Nat.le_trans hfits hbound), if_pos hfits]
    · have hlt := Nat.not_le.mp hfits
      rw [hgrow _ hlt (Nat.le_add_right _ _), hcap, if_pos hlt, if_neg hfits]
      by_cases hmax : (t i).data.length + n ≤ 2 ^ 63
      · rw [if_pos hmax, if_pos hmax]
      · rw [if_neg hmax, if_neg hmax]
  · rw [if_pos (by omega), if_neg (by omega)]

end Agecrypt
