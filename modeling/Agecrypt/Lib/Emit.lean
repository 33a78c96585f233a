import Agecrypt.Lib.Runs

/-!
# Programs that emit a text

The counterpart of `Agecrypt.Lib.Recognize` for a program that writes.
`At s d w` says that in the state `s` the text `w` has been written and that
`d` is there to be drawn from.  `Emits At h p G` says that whenever `p`
succeeds, it has written a text of `G`; a program may fail at any time.
-/

namespace Agecrypt

namespace ProgE

variable {Op : Type} {Ret : Op → Type} {α β ρ σ τ : Type} {At : σ → ρ → List τ → Prop}
  {h : Handler Op Ret σ}

/-- `G` relates what is there to be drawn, the result, the text, and what is
left to be drawn. -/
structure Emits (At : σ → ρ → List τ → Prop) (h : Handler Op Ret σ) (p : ProgE Op Ret α)
    (G : ρ → α → List τ → ρ → Prop) : Prop where
  sound : ∀ {s d w a s'}, At s d w → Runs h p s (.ok a) s' →
    ∃ t d', G d a t d' ∧ At s' d' (w ++ t)

namespace Emits

variable {G G' : ρ → α → List τ → ρ → Prop}

theorem mono {p : ProgE Op Ret α} (hp : Emits At h p G)
    (hG : ∀ d a t d', G d a t d' → G' d a t d') : Emits At h p G' := by
  constructor
  intro s d w a s' hs hr
  obtain ⟨t, d', hg, hs'⟩ := hp.sound hs hr
  exact ⟨t, d', hG _ _ _ _ hg, hs'⟩

/-- A program that never succeeds. -/
theorem never {p : ProgE Op Ret α} (hp : ∀ s a s', ¬ Runs h p s (.ok a) s') : Emits At h p G := by
  constructor
  intro s d w a s' _ hr
  exact absurd hr (hp s a s')

theorem throw (e : String) : Emits At h (throw e : ProgE Op Ret α) G := by
  apply never
  intro s a s' hr
  cases (runs_throw.mp hr).1

theorem pure (a : α) :
    Emits At h (pure a : ProgE Op Ret α) fun d b t d' => b = a ∧ t = [] ∧ d' = d := by
  constructor
  intro s d w b s' hs hr
  obtain ⟨hb, rfl⟩ := runs_pure.mp hr
  refine ⟨[], d, ⟨Except.ok.inj hb, rfl, rfl⟩, ?_⟩
  rw [List.append_nil]
  exact hs

/-- A program in sequence with another. -/
theorem bind {p : ProgE Op Ret β} {f : β → ProgE Op Ret α} {G₁ : ρ → β → List τ → ρ → Prop}
    {G₂ : β → ρ → α → List τ → ρ → Prop} (hp : Emits At h p G₁)
    (hf : ∀ b, Emits At h (f b) (G₂ b)) :
    Emits At h (p >>= f) fun d a t d' =>
      ∃ b t₁ d₁ t₂, t = t₁ ++ t₂ ∧ G₁ d b t₁ d₁ ∧ G₂ b d₁ a t₂ d' := by
  constructor
  intro s d w a s' hs hr
  rcases runs_bind.mp hr with ⟨e, -, he⟩ | ⟨b, s₁, hb, hr'⟩
  · cases he
  · obtain ⟨t₁, d₁, hg₁, hs₁⟩ := hp.sound hs hb
    obtain ⟨t₂, d', hg₂, hs₂⟩ := (hf b).sound hs₁ hr'
    rw [List.append_assoc] at hs₂
    exact ⟨t₁ ++ t₂, d', ⟨b, t₁, d₁, t₂, rfl, hg₁, hg₂⟩, hs₂⟩

end Emits

end ProgE

end Agecrypt
