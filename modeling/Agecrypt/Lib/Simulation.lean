import Agecrypt.Lib.Prog
import Mathlib.Tactic.ByContra

/-!
# Invariants and simulations of programs

The facts about a run that hold of every program, once they hold of every
operation:

* `Prog.run_invariant`: a property of states that every operation keeps.
* `Prog.run_simulation`: two handlers whose operations answer alike on
  related states.  Every outcome of the first run is an outcome of the
  second, with related final states.  The guard `G` is for a first handler
  with unlimited resources: it bounds what the run has used at its end, and
  so at every step before.
-/

namespace Agecrypt

namespace Prog

variable {Op : Type} {Ret : Op → Type} {α β γ σ σ₁ σ₂ : Type}

/-! ## Invariants -/

theorem iterate_invariant {step : β → σ → Option ((β ⊕ γ) × σ)}
    {I : σ → Prop} (hstep : ∀ b s r s', I s → step b s = some (r, s') → I s') :
    ∀ n b s c s', I s → iterate step n b s = some (c, s') → I s' := by
  intro n
  induction n with
  | zero =>
    intro b s c s' _ h
    simp [iterate] at h
  | succ n ih =>
    intro b s c s' hI h
    rw [iterate] at h
    rcases hs : step b s with _ | ⟨b' | c', t⟩
    · simp [hs] at h
    · rw [hs] at h
      exact ih b' t c s' (hstep b s _ t hI hs) h
    · rw [hs] at h
      obtain ⟨rfl, rfl⟩ : c' = c ∧ t = s' := by simpa using h
      exact hstep b s _ t hI hs

/-- What every operation keeps, every program keeps. -/
theorem run_invariant {h : Handler Op Ret σ} {I : σ → Prop}
    (hop : ∀ op s r s', I s → h op s = some (r, s') → I s') (n : Nat)
    (p : Prog Op Ret α) (s : σ) (a : α) (s' : σ) (hI : I s)
    (hr : run h n p s = some (a, s')) : I s' := by
  induction p generalizing s s' with
  | pure a =>
    obtain ⟨-, rfl⟩ : _ ∧ s = s' := by simpa [run] using hr
    exact hI
  | call op k ih =>
    rw [run] at hr
    rcases ho : h op s with _ | ⟨r, t⟩
    · simp [ho] at hr
    · rw [ho] at hr
      exact ih r t a s' (hop op s r t hI ho) hr
  | loop body init k ihb ihk =>
    rw [run] at hr
    rcases hl : iterate (fun b s => run h n (body b) s) n init s with _ | ⟨c, t⟩
    · simp [hl] at hr
    · rw [hl] at hr
      refine ihk c t a s' ?_ hr
      exact iterate_invariant (fun b s r s' hs hb => ihb b s r s' hs hb) n init s c t hI hl

/-! ## Simulations -/

/-- The operations of `h₁` and `h₂` answer alike on related states, as far
as the guard reaches. -/
structure Simulates (h₁ : Handler Op Ret σ₁) (h₂ : Handler Op Ret σ₂)
    (G : σ₁ → Prop) (R : σ₁ → σ₂ → Prop) : Prop where
  guard_back : ∀ op s r s', h₁ op s = some (r, s') → G s' → G s
  step : ∀ op s₁ s₂ r s₁', R s₁ s₂ → h₁ op s₁ = some (r, s₁') → G s₁' →
    ∃ s₂', h₂ op s₂ = some (r, s₂') ∧ R s₁' s₂'

theorem Simulates.run_guard_back {h₁ : Handler Op Ret σ₁}
    {h₂ : Handler Op Ret σ₂} {G : σ₁ → Prop} {R : σ₁ → σ₂ → Prop}
    (sim : Simulates h₁ h₂ G R) (n : Nat) (p : Prog Op Ret α) (s : σ₁) (a : α)
    (s' : σ₁) (hr : run h₁ n p s = some (a, s')) (hG : G s') : G s := by
  by_contra hs
  exact run_invariant (I := fun s => ¬ G s)
    (fun op s r s' hn ho hg => hn (sim.guard_back op s r s' ho hg)) n p s a s' hs hr hG

theorem iterate_simulation {step₁ : β → σ₁ → Option ((β ⊕ γ) × σ₁)}
    {step₂ : β → σ₂ → Option ((β ⊕ γ) × σ₂)} {G : σ₁ → Prop} {R : σ₁ → σ₂ → Prop}
    (hback : ∀ b s r s', step₁ b s = some (r, s') → G s' → G s)
    (hstep : ∀ b s₁ s₂ r s₁', R s₁ s₂ → step₁ b s₁ = some (r, s₁') → G s₁' →
      ∃ s₂', step₂ b s₂ = some (r, s₂') ∧ R s₁' s₂') :
    ∀ n b s₁ s₂ c s₁', R s₁ s₂ → iterate step₁ n b s₁ = some (c, s₁') → G s₁' →
      ∃ s₂', iterate step₂ n b s₂ = some (c, s₂') ∧ R s₁' s₂' := by
  intro n
  induction n with
  | zero =>
    intro b s₁ s₂ c s₁' _ h _
    simp [iterate] at h
  | succ n ih =>
    intro b s₁ s₂ c s₁' hR h hG
    rw [iterate] at h ⊢
    rcases hs : step₁ b s₁ with _ | ⟨b' | c', t⟩
    · simp [hs] at h
    · rw [hs] at h
      have ht : G t := by
        by_contra hn
        exact iterate_invariant (I := fun s => ¬ G s)
          (fun b s r s' hns hb hg => hns (hback b s r s' hb hg)) n b' t c s₁' hn h hG
      obtain ⟨t₂, h₂, hR'⟩ := hstep b s₁ s₂ _ t hR hs ht
      rw [h₂]
      exact ih b' t t₂ c s₁' hR' h hG
    · rw [hs] at h
      obtain ⟨rfl, rfl⟩ : c' = c ∧ t = s₁' := by simpa using h
      obtain ⟨t₂, h₂, hR'⟩ := hstep b s₁ s₂ _ t hR hs hG
      exact ⟨t₂, by rw [h₂], hR'⟩

/-- Every outcome of the first run is an outcome of the second. -/
theorem Simulates.run_simulation {h₁ : Handler Op Ret σ₁}
    {h₂ : Handler Op Ret σ₂} {G : σ₁ → Prop} {R : σ₁ → σ₂ → Prop}
    (sim : Simulates h₁ h₂ G R) (n : Nat) (p : Prog Op Ret α) (s₁ : σ₁) (s₂ : σ₂)
    (a : α) (s₁' : σ₁) (hR : R s₁ s₂) (hr : run h₁ n p s₁ = some (a, s₁'))
    (hG : G s₁') : ∃ s₂', run h₂ n p s₂ = some (a, s₂') ∧ R s₁' s₂' := by
  induction p generalizing s₁ s₂ s₁' with
  | pure b =>
    obtain ⟨rfl, rfl⟩ : b = a ∧ s₁ = s₁' := by simpa [run] using hr
    exact ⟨s₂, rfl, hR⟩
  | call op k ih =>
    rw [run] at hr
    rcases ho : h₁ op s₁ with _ | ⟨r, t⟩
    · simp [ho] at hr
    · rw [ho] at hr
      have ht : G t := sim.run_guard_back n (k r) t a s₁' hr hG
      obtain ⟨t₂, h₂, hR'⟩ := sim.step op s₁ s₂ r t hR ho ht
      obtain ⟨s₂', hr₂, hR''⟩ := ih r t t₂ a s₁' hR' hr hG
      exact ⟨s₂', by rw [run, h₂]; exact hr₂, hR''⟩
  | loop body init k ihb ihk =>
    rw [run] at hr
    rcases hl : iterate (fun b s => run h₁ n (body b) s) n init s₁ with _ | ⟨c, t⟩
    · simp [hl] at hr
    · rw [hl] at hr
      have ht : G t := sim.run_guard_back n (k c) t a s₁' hr hG
      obtain ⟨t₂, h₂, hR'⟩ := iterate_simulation
        (fun b s r s' hb => sim.run_guard_back n (body b) s r s' hb)
        (fun b s₁ s₂ r s₁' hR hb hG => ihb b s₁ s₂ r s₁' hR hb hG)
        n init s₁ s₂ c t hR hl ht
      obtain ⟨s₂', hr₂, hR''⟩ := ihk c t t₂ a s₁' hR' hr hG
      exact ⟨s₂', by rw [run, h₂]; exact hr₂, hR''⟩

end Prog

end Agecrypt
