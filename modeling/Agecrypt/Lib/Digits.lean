import Mathlib.Data.Nat.Digits.Defs
import Mathlib.Data.Nat.Digits.Lemmas

/-!
# Digits, most significant first

`value b ds` is the number that the digits `ds` write in base `b`.  A
converter between two bases that are powers of two reads the digits of one
number from the front and holds back the bits that do not fill a digit yet.
`Regroups b c ds es k r` is its invariant: the digits `ds` of `b` bits have
been read, the digits `es` of `c` bits written, and the `k` bits held back
write `r`.
-/

namespace Agecrypt

namespace Digits

/-- The number that the digits write in base `b`. -/
def value (b : Nat) (ds : List Nat) : Nat := Nat.ofDigits b ds.reverse

@[simp] theorem value_nil (b : Nat) : value b [] = 0 := rfl

theorem value_concat (b : Nat) (ds : List Nat) (d : Nat) :
    value b (ds ++ [d]) = value b ds * b + d := by
  rw [value, List.reverse_append, List.reverse_singleton, List.singleton_append,
    Nat.ofDigits_cons, value, Nat.mul_comm, Nat.add_comm]

/-- Digits of one length are known by their value. -/
theorem value_inj {b : Nat} (hb : 1 < b) {ds es : List Nat} (hlen : ds.length = es.length)
    (hd : ∀ d ∈ ds, d < b) (he : ∀ d ∈ es, d < b) (h : value b ds = value b es) : ds = es := by
  have hrev : ds.reverse = es.reverse := by
    refine Nat.ofDigits_inj_of_len_eq hb ?_ ?_ ?_ h
    · rw [List.length_reverse, List.length_reverse, hlen]
    · exact fun d hd' => hd d (List.mem_reverse.mp hd')
    · exact fun d he' => he d (List.mem_reverse.mp he')
  exact List.reverse_injective hrev

/-- Digits of `b` bits read as digits of `c` bits, with `k` bits left over
that write `r`. -/
structure Regroups (b c : Nat) (ds es : List Nat) (k r : Nat) : Prop where
  value_eq : value (2 ^ b) ds = value (2 ^ c) es * 2 ^ k + r
  length_eq : b * ds.length = c * es.length + k
  rest : r < 2 ^ k

namespace Regroups

variable {b c k r : Nat} {ds es : List Nat}

theorem nil (b c : Nat) : Regroups b c [] [] 0 0 := ⟨rfl, rfl, Nat.one_pos⟩

/-- One more digit is read. -/
theorem read (h : Regroups b c ds es k r) {d : Nat} (hd : d < 2 ^ b) :
    Regroups b c (ds ++ [d]) es (k + b) (r * 2 ^ b + d) where
  value_eq := by
    rw [value_concat, h.value_eq, Nat.pow_add, Nat.add_mul, Nat.mul_assoc, Nat.add_assoc]
  length_eq := by
    have hl := h.length_eq
    rw [List.length_append, List.length_singleton, Nat.mul_add, hl]
    omega
  rest := by
    have hr := h.rest
    have hle : (r + 1) * 2 ^ b ≤ 2 ^ k * 2 ^ b := Nat.mul_le_mul_right _ hr
    rw [Nat.pow_add]
    rw [Nat.add_mul, Nat.one_mul] at hle
    omega

/-- One more digit is written, from the first of the bits held back. -/
theorem write (h : Regroups b c ds es k r) (hk : c ≤ k) :
    Regroups b c ds (es ++ [r / 2 ^ (k - c)]) (k - c) (r % 2 ^ (k - c)) where
  value_eq := by
    have hpow : 2 ^ k = 2 ^ c * 2 ^ (k - c) := by
      rw [← Nat.pow_add]
      congr 1
      omega
    have hr := Nat.div_add_mod' r (2 ^ (k - c))
    rw [value_concat, h.value_eq, hpow, Nat.add_mul, Nat.add_assoc, hr, Nat.mul_assoc]
  length_eq := by
    have hl := h.length_eq
    rw [List.length_append, List.length_singleton, Nat.mul_add, hl]
    omega
  rest := Nat.mod_lt _ (Nat.two_pow_pos _)

/-- The last digit is filled up with zero bits. -/
theorem pad (h : Regroups b c ds es k r) (hk : k ≤ c) :
    value (2 ^ c) (es ++ [r * 2 ^ (c - k)]) = value (2 ^ b) ds * 2 ^ (c - k) := by
  have hpow : 2 ^ c = 2 ^ k * 2 ^ (c - k) := by
    rw [← Nat.pow_add]
    congr 1
    omega
  rw [value_concat, h.value_eq, hpow, Nat.add_mul, Nat.mul_assoc]

/-- Digits that were written and filled up, read back. -/
theorem inverse {ps bs : List Nat} {pad : Nat} (h : Regroups c b ps bs k r)
    (hb : 0 < b) (hvalue : value (2 ^ c) ps = value (2 ^ b) ds * 2 ^ pad)
    (hlen : c * ps.length = b * ds.length + pad) (hpad : pad < b) (hk : k < b)
    (hds : ∀ d ∈ ds, d < 2 ^ b) (hbs : ∀ d ∈ bs, d < 2 ^ b) : bs = ds := by
  have heq : b * bs.length + k = b * ds.length + pad := h.length_eq.symm.trans hlen
  have hlen' : bs.length = ds.length := by
    have h₁ : (b * bs.length + k) / b = bs.length := by
      rw [Nat.mul_add_div hb, Nat.div_eq_of_lt hk, Nat.add_zero]
    have h₂ : (b * ds.length + pad) / b = ds.length := by
      rw [Nat.mul_add_div hb, Nat.div_eq_of_lt hpad, Nat.add_zero]
    rw [← h₁, ← h₂, heq]
  have hkpad : k = pad := by
    rw [hlen'] at heq
    omega
  subst hkpad
  refine value_inj (Nat.one_lt_two_pow (by omega)) hlen' hbs hds ?_
  have hv := h.value_eq.symm.trans hvalue
  have hdiv := congrArg (· / 2 ^ k) hv
  have hpos := Nat.two_pow_pos k
  rwa [Nat.mul_comm, Nat.mul_add_div hpos, Nat.div_eq_of_lt h.rest, Nat.add_zero,
    Nat.mul_div_cancel _ hpos] at hdiv

end Regroups

end Digits

end Agecrypt
