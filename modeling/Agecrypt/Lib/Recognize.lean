import Agecrypt.Lib.Runs

/-!
# Programs that recognise a language

A parser reads the front part of an input and may look beyond it.  The
relation `At s l` says that the state `s` has `l` still to deliver.  For a
program `p` and a relation `G` between a result, a text and what follows the
text, `Recognizes At h p G` says that `p` succeeds exactly on the texts of
`G`, and takes exactly the text.

The rules follow the program, so that the grammar of a parser is assembled
from those of its parts; a loop has the texts of its rounds in a row.
-/

namespace Agecrypt

namespace ProgE

variable {Op : Type} {Ret : Op → Type} {α β γ σ τ : Type} {At : σ → List τ → Prop}
  {h : Handler Op Ret σ}

/-- The program succeeds exactly on the texts of `G`. -/
structure Recognizes (At : σ → List τ → Prop) (h : Handler Op Ret σ) (p : ProgE Op Ret α)
    (G : α → List τ → List τ → Prop) : Prop where
  sound : ∀ {s l a s'}, At s l → Runs h p s (.ok a) s' →
    ∃ t u, l = t ++ u ∧ G a t u ∧ At s' u
  complete : ∀ {s a t u}, At s (t ++ u) → G a t u →
    ∃ s', Runs h p s (.ok a) s' ∧ At s' u

namespace Recognizes

variable {G G' : α → List τ → List τ → Prop}

theorem congr {p : ProgE Op Ret α} (hp : Recognizes At h p G)
    (hG : ∀ a t u, G a t u ↔ G' a t u) : Recognizes At h p G' := by
  refine ⟨fun hs hr => ?_, fun hs hg => hp.complete hs ((hG _ _ _).mpr hg)⟩
  obtain ⟨t, u, hl, hg, hs'⟩ := hp.sound hs hr
  exact ⟨t, u, hl, (hG _ _ _).mp hg, hs'⟩

/-- A program that never succeeds. -/
theorem never {p : ProgE Op Ret α} (hp : ∀ s l a s', At s l → ¬ Runs h p s (.ok a) s') :
    Recognizes At h p fun _ _ _ => False :=
  ⟨fun hs hr => absurd hr (hp _ _ _ _ hs), fun _ hg => hg.elim⟩

theorem throw (e : String) : Recognizes At h (throw e : ProgE Op Ret α) fun _ _ _ => False := by
  apply never
  intro s l a s' _ hr
  cases (runs_throw.mp hr).1

theorem pure (a : α) : Recognizes At h (pure a : ProgE Op Ret α) fun b t _ => b = a ∧ t = [] := by
  constructor
  · intro s l b s' hs hr
    obtain ⟨hb, rfl⟩ := runs_pure.mp hr
    exact ⟨[], l, rfl, ⟨Except.ok.inj hb, rfl⟩, hs⟩
  · intro s b t u hs hg
    obtain ⟨rfl, rfl⟩ := hg
    exact ⟨s, runs_pure.mpr ⟨rfl, rfl⟩, hs⟩

theorem ite {P : Prop} [Decidable P] {p q : ProgE Op Ret α} (hp : Recognizes At h p G)
    (hq : Recognizes At h q G') :
    Recognizes At h (if P then p else q) fun a t u => if P then G a t u else G' a t u := by
  by_cases hP : P
  · simp only [hP, if_true]
    exact hp
  · simp only [hP, if_false]
    exact hq

/-- A program in sequence with another. -/
theorem bind {p : ProgE Op Ret β} {f : β → ProgE Op Ret α} {G₁ : β → List τ → List τ → Prop}
    {G₂ : β → α → List τ → List τ → Prop} (hp : Recognizes At h p G₁)
    (hf : ∀ b, Recognizes At h (f b) (G₂ b)) :
    Recognizes At h (p >>= f) fun a t u =>
      ∃ b t₁ t₂, t = t₁ ++ t₂ ∧ G₁ b t₁ (t₂ ++ u) ∧ G₂ b a t₂ u := by
  constructor
  · intro s l a s' hs hr
    rcases runs_bind.mp hr with ⟨e, -, he⟩ | ⟨b, s₁, hb, hr'⟩
    · cases he
    · obtain ⟨t₁, u₁, hl₁, hg₁, hs₁⟩ := hp.sound hs hb
      obtain ⟨t₂, u, rfl, hg₂, hs₂⟩ := (hf b).sound hs₁ hr'
      exact ⟨t₁ ++ t₂, u, by rw [hl₁, List.append_assoc], ⟨b, t₁, t₂, rfl, hg₁, hg₂⟩, hs₂⟩
  · intro s a t u hs hg
    obtain ⟨b, t₁, t₂, rfl, hg₁, hg₂⟩ := hg
    rw [List.append_assoc] at hs
    obtain ⟨s₁, hr₁, hs₁⟩ := hp.complete hs hg₁
    obtain ⟨s₂, hr₂, hs₂⟩ := (hf b).complete hs₁ hg₂
    exact ⟨s₂, (Runs.bind_ok hr₁).mpr hr₂, hs₂⟩

/-- `bind`, with the texts of the continuation given. -/
theorem bind_to {p : ProgE Op Ret β} {f : β → ProgE Op Ret α} {G₁ : β → List τ → List τ → Prop}
    (G₂ : β → α → List τ → List τ → Prop) (hp : Recognizes At h p G₁)
    (hf : ∀ b, Recognizes At h (f b) (G₂ b)) :
    Recognizes At h (p >>= f) fun a t u =>
      ∃ b t₁ t₂, t = t₁ ++ t₂ ∧ G₁ b t₁ (t₂ ++ u) ∧ G₂ b a t₂ u :=
  hp.bind hf

/-- A program whose error the continuation receives and fails on. -/
theorem attempt_bind {p : ProgE Op Ret β} {f : Except String β → ProgE Op Ret α}
    {G₁ : β → List τ → List τ → Prop} {G₂ : β → α → List τ → List τ → Prop}
    (hp : Recognizes At h p G₁) (herr : ∀ e s a s', ¬ Runs h (f (.error e)) s (.ok a) s')
    (hf : ∀ b, Recognizes At h (f (.ok b)) (G₂ b)) :
    Recognizes At h (attempt p >>= f) fun a t u =>
      ∃ b t₁ t₂, t = t₁ ++ t₂ ∧ G₁ b t₁ (t₂ ++ u) ∧ G₂ b a t₂ u := by
  constructor
  · intro s l a s' hs hr
    obtain ⟨x, s₁, hx, hr'⟩ := runs_attempt_bind.mp hr
    cases x with
    | error e => exact absurd hr' (herr e _ _ _)
    | ok b =>
      obtain ⟨t₁, u₁, hl₁, hg₁, hs₁⟩ := hp.sound hs hx
      obtain ⟨t₂, u, rfl, hg₂, hs₂⟩ := (hf b).sound hs₁ hr'
      exact ⟨t₁ ++ t₂, u, by rw [hl₁, List.append_assoc], ⟨b, t₁, t₂, rfl, hg₁, hg₂⟩, hs₂⟩
  · intro s a t u hs hg
    obtain ⟨b, t₁, t₂, rfl, hg₁, hg₂⟩ := hg
    rw [List.append_assoc] at hs
    obtain ⟨s₁, hr₁, hs₁⟩ := hp.complete hs hg₁
    obtain ⟨s₂, hr₂, hs₂⟩ := (hf b).complete hs₁ hg₂
    exact ⟨s₂, runs_attempt_bind.mpr ⟨.ok b, s₁, hr₁, hr₂⟩, hs₂⟩

/-- `attempt_bind`, with the texts of the continuation given. -/
theorem attempt_bind_to {p : ProgE Op Ret β} {f : Except String β → ProgE Op Ret α}
    {G₁ : β → List τ → List τ → Prop} (G₂ : β → α → List τ → List τ → Prop)
    (hp : Recognizes At h p G₁) (herr : ∀ e s a s', ¬ Runs h (f (.error e)) s (.ok a) s')
    (hf : ∀ b, Recognizes At h (f (.ok b)) (G₂ b)) :
    Recognizes At h (attempt p >>= f) fun a t u =>
      ∃ b t₁ t₂, t = t₁ ++ t₂ ∧ G₁ b t₁ (t₂ ++ u) ∧ G₂ b a t₂ u :=
  hp.attempt_bind herr hf

end Recognizes

/-! ## Loops -/

/-- The texts of the rounds of a loop, in a row. -/
inductive LoopText (B : β → β ⊕ γ → List τ → List τ → Prop) : β → γ → List τ → List τ → Prop
  | stop {b c t u} : B b (.inr c) t u → LoopText B b c t u
  | more {b b' c t₁ t₂ u} : B b (.inl b') t₁ (t₂ ++ u) → LoopText B b' c t₂ u →
      LoopText B b c (t₁ ++ t₂) u

theorem Recognizes.loop {body : β → ProgE Op Ret (β ⊕ γ)}
    {B : β → β ⊕ γ → List τ → List τ → Prop} (hbody : ∀ b, Recognizes At h (body b) (B b))
    (b : β) : Recognizes At h (loop body b) (LoopText B b) := by
  constructor
  · intro s l c s' hs hr
    obtain ⟨n, hn⟩ := hr
    rw [exec_loop] at hn
    have key : ∀ m b s l, At s l → loopExec h n body m b s = some (.ok c, s') →
        ∃ t u, l = t ++ u ∧ LoopText B b c t u ∧ At s' u := by
      intro m
      induction m with
      | zero =>
        intro b s l _ hm
        simp [loopExec] at hm
      | succ m ih =>
        intro b s l hs hm
        rw [loopExec] at hm
        rcases hb : exec h n (body b) s with _ | ⟨e | b' | c', s₁⟩
        · simp [hb] at hm
        · simp [hb] at hm
        · rw [hb] at hm
          obtain ⟨t₁, u₁, hl₁, hg₁, hs₁⟩ := (hbody b).sound hs ⟨n, hb⟩
          obtain ⟨t₂, u, rfl, hg₂, hs₂⟩ := ih b' s₁ u₁ hs₁ hm
          exact ⟨t₁ ++ t₂, u, by rw [hl₁, List.append_assoc], .more hg₁ hg₂, hs₂⟩
        · rw [hb] at hm
          obtain ⟨rfl, rfl⟩ : c' = c ∧ s₁ = s' := by simpa using hm
          obtain ⟨t, u, hl, hg, hs'⟩ := (hbody b).sound hs ⟨n, hb⟩
          exact ⟨t, u, hl, .stop hg, hs'⟩
    exact key n b s l hs hn
  · intro s c t u hs hg
    induction hg generalizing s with
    | stop hstop =>
      obtain ⟨s', hr, hs'⟩ := (hbody _).complete hs hstop
      exact ⟨s', runs_loop.mpr (.inr (.inr ⟨_, hr, rfl⟩)), hs'⟩
    | more hmore _ ih =>
      rw [List.append_assoc] at hs
      obtain ⟨s₁, hr₁, hs₁⟩ := (hbody _).complete hs hmore
      obtain ⟨s₂, hr₂, hs₂⟩ := ih hs₁
      exact ⟨s₂, runs_loop.mpr (.inr (.inl ⟨_, s₁, hr₁, hr₂⟩)), hs₂⟩

end ProgE

end Agecrypt
