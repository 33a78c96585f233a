import Mathlib.Algebra.Group.Nat.Defs
import Mathlib.Data.List.Basic
import Mathlib.Data.List.TakeDrop

/-!
# Functions that work block by block

A hash or a message authentication code takes its text in blocks of a fixed
size, and an implementation takes it in pieces of any size: it keeps the
bytes of a block that is not full until the next piece.

* `run B f s m` is the state behind the full blocks of `m`, and `rest B m`
  are the bytes behind them.
* `loop B f` is the loop of an implementation over the full blocks.

`run_append` and `rest_append` say what the next piece does, and
`foldlM_pieces` is the induction over the pieces.
-/

namespace Agecrypt

namespace Blockwise

variable {σ α : Type}

/-- The first `n` blocks. -/
def runN (B : Nat) (f : σ → List α → σ) : Nat → σ → List α → σ
  | 0, s, _ => s
  | n + 1, s, m => runN B f n (f s (m.take B)) (m.drop B)

/-- The full blocks. -/
def run (B : Nat) (f : σ → List α → σ) (s : σ) (m : List α) : σ := runN B f (m.length / B) s m

/-- The bytes behind the full blocks. -/
def rest (B : Nat) (m : List α) : List α := m.drop (B * (m.length / B))

/-- The loop over full blocks, with the state and the bytes that it leaves. -/
def loop (B : Nat) (f : σ → List α → σ) : Nat → σ → List α → σ × List α
  | 0, s, m => (s, m)
  | fuel + 1, s, m => if m.length < B then (s, m) else loop B f fuel (f s (m.take B)) (m.drop B)

section

variable {B : Nat} {f : σ → List α → σ} {s : σ} {blk m p : List α}

theorem length_rest : (rest B m).length = m.length % B := by
  have hsplit := Nat.div_add_mod m.length B
  rw [rest, List.length_drop]
  omega

theorem run_short (h : m.length < B) : run B f s m = s := by
  rw [run, Nat.div_eq_of_lt h, runN]

theorem rest_short (h : m.length < B) : rest B m = m := by
  rw [rest, Nat.div_eq_of_lt h, Nat.mul_zero, List.drop_zero]

variable (hB : 0 < B)

include hB

theorem length_rest_lt : (rest B m).length < B := by
  rw [length_rest]
  exact Nat.mod_lt _ hB

/-- The first block is worked on first. -/
theorem run_step (h : B ≤ m.length) : run B f s m = run B f (f s (m.take B)) (m.drop B) := by
  have hdiv : m.length / B = (m.drop B).length / B + 1 := by
    rw [List.length_drop, Nat.div_eq_sub_div hB h]
  rw [run, hdiv, runN, run]

theorem rest_step (h : B ≤ m.length) : rest B m = rest B (m.drop B) := by
  have hdiv : m.length / B = (m.drop B).length / B + 1 := by
    rw [List.length_drop, Nat.div_eq_sub_div hB h]
  rw [rest, rest, hdiv, Nat.mul_add, Nat.mul_one, List.drop_drop, Nat.add_comm]

theorem run_block (h : blk.length = B) : run B f s (blk ++ m) = run B f (f s blk) m := by
  rw [run_step hB (by rw [List.length_append]; omega), ← h, List.take_left, List.drop_left]

theorem rest_block (h : blk.length = B) : rest B (blk ++ m) = rest B m := by
  rw [rest_step hB (by rw [List.length_append]; omega), ← h, List.drop_left]

omit hB in
theorem length_take_block (h : B ≤ m.length) : (m.take B).length = B := by
  rw [List.length_take]
  omega

omit hB in
/-- The first block of `m`, and what is behind it in `m ++ p`. -/
theorem append_split : m ++ p = m.take B ++ (m.drop B ++ p) := by
  rw [← List.append_assoc, List.take_append_drop]

/-- Induction over the blocks of a text. -/
theorem blocks_induction {P : List α → Prop} (short : ∀ m, m.length < B → P m)
    (block : ∀ m, B ≤ m.length → P (m.drop B) → P m) (m : List α) : P m := by
  obtain ⟨n, hn⟩ : ∃ n, m.length ≤ n := ⟨_, Nat.le_refl _⟩
  induction n generalizing m with
  | zero => exact short m (by omega)
  | succ n ih =>
    rcases Nat.lt_or_ge m.length B with hm | hm
    · exact short m hm
    · apply block m hm
      apply ih
      rw [List.length_drop]
      omega

/-- The next piece is put behind the bytes that are left. -/
theorem run_append : run B f s (m ++ p) = run B f (run B f s m) (rest B m ++ p) := by
  induction m using blocks_induction hB generalizing s with
  | short m hm => rw [run_short hm, rest_short hm]
  | block m hm ih =>
    rw [@append_split _ B m p, run_block hB (length_take_block hm), ih, run_step hB hm,
      rest_step hB hm]

theorem rest_append : rest B (m ++ p) = rest B (rest B m ++ p) := by
  induction m using blocks_induction hB with
  | short m hm => rw [rest_short hm]
  | block m hm ih =>
    rw [@append_split _ B m p, rest_block hB (length_take_block hm), ih, rest_step hB hm]

/-- The loop does all full blocks. -/
theorem loop_eq (fuel : Nat) : ∀ {s : σ} {m : List α}, m.length ≤ fuel →
    loop B f fuel s m = (run B f s m, rest B m) := by
  induction fuel with
  | zero =>
    intro s m hn
    have hm : m.length < B := by omega
    rw [loop, run_short hm, rest_short hm]
  | succ fuel ih =>
    intro s m hn
    rw [loop]
    split
    · rename_i hm
      rw [run_short hm, rest_short hm]
    · rename_i hm
      have hge : B ≤ m.length := by omega
      rw [ih (by rw [List.length_drop]; omega), run_step hB hge, rest_step hB hge]

/-- The block that a piece fills. -/
theorem length_fill (h : B ≤ (rest B m).length + p.length) :
    (rest B m ++ p.take (B - (rest B m).length)).length = B := by
  have hlt := @length_rest_lt _ B m hB
  rw [List.length_append, List.length_take]
  omega

omit hB in
theorem fill_split (n : Nat) : rest B m ++ p = (rest B m ++ p.take n) ++ p.drop n := by
  rw [List.append_assoc, List.take_append_drop]

/-- A piece that fills the block that was begun. -/
theorem run_fill (h : B ≤ (rest B m).length + p.length) :
    run B f s (m ++ p) =
      run B f (f (run B f s m) (rest B m ++ p.take (B - (rest B m).length)))
        (p.drop (B - (rest B m).length)) := by
  rw [run_append hB, fill_split (B - (rest B m).length), run_block hB (length_fill hB h)]

theorem rest_fill (h : B ≤ (rest B m).length + p.length) :
    rest B (m ++ p) = rest B (p.drop (B - (rest B m).length)) := by
  rw [rest_append hB, fill_split (B - (rest B m).length), rest_block hB (length_fill hB h)]

/-- A piece that does not. -/
theorem run_keep (h : (rest B m).length + p.length < B) :
    run B f s (m ++ p) = run B f s m := by
  rw [run_append hB, run_short (by rw [List.length_append]; exact h)]

theorem rest_keep (h : (rest B m).length + p.length < B) :
    rest B (m ++ p) = rest B m ++ p := by
  rw [rest_append hB, rest_short (by rw [List.length_append]; exact h)]

end

/-! ## Pieces -/

/-- When each call takes its piece, all calls together take all pieces. -/
theorem foldlM_pieces (call : σ → List α → Option σ) (Taken : σ → List α → Prop)
    (step : ∀ {s m} p, Taken s m → ∃ s', call s p = some s' ∧ Taken s' (m ++ p))
    (parts : List (List α)) : ∀ {s : σ} {m : List α}, Taken s m →
    ∃ s', parts.foldlM call s = some s' ∧ Taken s' (m ++ parts.flatten) := by
  induction parts with
  | nil =>
    intro s m h
    rw [List.flatten_nil, List.append_nil]
    exact ⟨s, rfl, h⟩
  | cons p parts ih =>
    intro s m h
    obtain ⟨s₁, hs₁, h₁⟩ := step p h
    obtain ⟨s', hs', h'⟩ := ih h₁
    rw [List.append_assoc] at h'
    refine ⟨s', ?_, h'⟩
    rw [List.foldlM_cons, hs₁]
    exact hs'

end Blockwise

end Agecrypt
