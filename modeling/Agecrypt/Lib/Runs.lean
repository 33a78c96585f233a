import Agecrypt.Lib.Simulation

/-!
# Outcomes, whatever the bound

`Runs h p s r s'` says that the program `p` ends in `s'` with the value or
error `r`, for some bound on its loops.  The rules here take a run apart
along the program: sequence, operation, loop.  A program that has no outcome
loops for ever or has no defined outcome.
-/

namespace Agecrypt

namespace ProgE

variable {Op : Type} {Ret : Op → Type} {α β γ σ σ₁ σ₂ : Type}

/-- The program ends with `r`. -/
def Runs (h : Handler Op Ret σ) (p : ProgE Op Ret α) (s : σ) (r : Except String α) (s' : σ) :
    Prop :=
  ∃ n, exec h n p s = some (r, s')

namespace Runs

variable {h : Handler Op Ret σ}

/-- There is one outcome at most. -/
theorem unique {p : ProgE Op Ret α} {s s₁ s₂ : σ} {r₁ r₂ : Except String α}
    (h₁ : Runs h p s r₁ s₁) (h₂ : Runs h p s r₂ s₂) : r₁ = r₂ ∧ s₁ = s₂ := by
  obtain ⟨n, h₁⟩ := h₁
  obtain ⟨m, h₂⟩ := h₂
  have h₁' := exec_mono h (Nat.le_max_left n m) p s _ h₁
  have h₂' := exec_mono h (Nat.le_max_right n m) p s _ h₂
  rw [h₁'] at h₂'
  exact Prod.mk.inj (Option.some.inj h₂')

end Runs

variable {h : Handler Op Ret σ}

/-- The outcome of an evaluation. -/
theorem exists_runs {p : ProgE Op Ret α} {s : σ} {r : Except String α} (n : Nat)
    (hr : (exec h n p s).map Prod.fst = some r) : ∃ s', Runs h p s r s' := by
  obtain ⟨x, hx, hfst⟩ := Option.map_eq_some_iff.mp hr
  rw [← hfst]
  exact ⟨x.2, n, hx⟩

/-- The outcome of an evaluation, with what `q` sees of its last state. -/
theorem exists_runs_at {p : ProgE Op Ret α} {s : σ} {r : Except String α} {q : σ → β} {b : β}
    (n : Nat) (hr : (exec h n p s).map (fun x => (x.1, q x.2)) = some (r, b)) :
    ∃ s', Runs h p s r s' ∧ q s' = b := by
  obtain ⟨x, hx, hq⟩ := Option.map_eq_some_iff.mp hr
  obtain ⟨hfst, hb⟩ := Prod.mk.inj hq
  rw [← hfst, ← hb]
  exact ⟨x.2, ⟨n, hx⟩, rfl⟩

@[simp] theorem runs_pure {a : α} {s : σ} {r : Except String α} {s' : σ} :
    Runs h (pure a) s r s' ↔ r = .ok a ∧ s' = s := by
  simp only [Runs, exec_pure, exists_const, Option.some.injEq, Prod.mk.injEq]
  constructor <;> rintro ⟨rfl, rfl⟩ <;> exact ⟨rfl, rfl⟩

@[simp] theorem runs_throw {e : String} {s : σ} {r : Except String α} {s' : σ} :
    Runs h (throw e : ProgE Op Ret α) s r s' ↔ r = .error e ∧ s' = s := by
  simp only [Runs, exec_throw, exists_const, Option.some.injEq, Prod.mk.injEq]
  constructor <;> rintro ⟨rfl, rfl⟩ <;> exact ⟨rfl, rfl⟩

@[simp] theorem runs_op {o : Op} {s : σ} {r : Except String (Ret o)} {s' : σ} :
    Runs h (op o) s r s' ↔ ∃ a, h o s = some (a, s') ∧ r = .ok a := by
  simp only [Runs, exec_op, exists_const, Option.map_eq_some_iff, Prod.mk.injEq, Prod.exists]
  constructor
  · rintro ⟨a, t, ho, rfl, rfl⟩
    exact ⟨a, ho, rfl⟩
  · rintro ⟨a, ho, rfl⟩
    exact ⟨a, s', ho, rfl, rfl⟩

/-- A program in sequence with another. -/
theorem runs_bind {p : ProgE Op Ret α} {f : α → ProgE Op Ret β} {s : σ}
    {r : Except String β} {s' : σ} :
    Runs h (p >>= f) s r s' ↔
      (∃ e, Runs h p s (.error e) s' ∧ r = .error e) ∨
      ∃ a t, Runs h p s (.ok a) t ∧ Runs h (f a) t r s' := by
  constructor
  · rintro ⟨n, hn⟩
    rw [exec_bind] at hn
    rcases hp : exec h n p s with _ | ⟨e | a, t⟩
    · simp [hp] at hn
    · rw [hp] at hn
      obtain ⟨rfl, rfl⟩ : .error e = r ∧ t = s' := by simpa using hn
      exact .inl ⟨e, ⟨n, hp⟩, rfl⟩
    · rw [hp] at hn
      exact .inr ⟨a, t, ⟨n, hp⟩, n, by simpa using hn⟩
  · rintro (⟨e, ⟨n, hn⟩, rfl⟩ | ⟨a, t, ⟨n, hn⟩, m, hm⟩)
    · exact ⟨n, by rw [exec_bind, hn, andThen_error]⟩
    · refine ⟨max n m, ?_⟩
      rw [exec_bind, exec_mono h (Nat.le_max_left n m) p s _ hn, andThen_ok]
      exact exec_mono h (Nat.le_max_right n m) (f a) t _ hm

/-- Sequencing behind a known outcome. -/
theorem Runs.bind_ok {p : ProgE Op Ret α} {f : α → ProgE Op Ret β} {s t : σ} {a : α}
    {r : Except String β} {s' : σ} (hp : Runs h p s (.ok a) t) :
    Runs h (p >>= f) s r s' ↔ Runs h (f a) t r s' := by
  rw [runs_bind]
  constructor
  · rintro (⟨e, he, -⟩ | ⟨a', t', hp', hf⟩)
    · cases (hp.unique he).1
    · obtain ⟨ha, rfl⟩ := hp.unique hp'
      obtain rfl := Except.ok.inj ha
      exact hf
  · exact fun hf => .inr ⟨a, t, hp, hf⟩

theorem Runs.bind_error {p : ProgE Op Ret α} {f : α → ProgE Op Ret β} {s t : σ} {e : String}
    {r : Except String β} {s' : σ} (hp : Runs h p s (.error e) t) :
    Runs h (p >>= f) s r s' ↔ r = .error e ∧ s' = t := by
  rw [runs_bind]
  constructor
  · rintro (⟨e', hp', rfl⟩ | ⟨a', t', hp', -⟩)
    · obtain ⟨he, rfl⟩ := hp.unique hp'
      exact ⟨by rw [Except.error.inj he], rfl⟩
    · cases (hp.unique hp').1
  · rintro ⟨rfl, rfl⟩
    exact .inl ⟨e, hp, rfl⟩

/-- An operation in sequence with a program. -/
theorem runs_op_bind {o : Op} {f : Ret o → ProgE Op Ret β} {s : σ} {r : Except String β} {s' : σ} :
    Runs h (op o >>= f) s r s' ↔ ∃ a t, h o s = some (a, t) ∧ Runs h (f a) t r s' := by
  rw [runs_bind]
  constructor
  · rintro (⟨e, he, -⟩ | ⟨a, t, hp, hf⟩)
    · obtain ⟨a, -, ha⟩ := runs_op.mp he
      cases ha
    · obtain ⟨a', ho, ha⟩ := runs_op.mp hp
      obtain rfl := Except.ok.inj ha
      exact ⟨a, t, ho, hf⟩
  · rintro ⟨a, t, ho, hf⟩
    exact .inr ⟨a, t, runs_op.mpr ⟨a, ho, rfl⟩, hf⟩

/-- Sequencing behind a known answer. -/
theorem runs_op_bind_of {o : Op} {f : Ret o → ProgE Op Ret β} {s t : σ} {a : Ret o}
    {r : Except String β} {s' : σ} (ho : h o s = some (a, t)) :
    Runs h (op o >>= f) s r s' ↔ Runs h (f a) t r s' :=
  Runs.bind_ok (runs_op.mpr ⟨a, ho, rfl⟩)

/-- A program whose error is kept as a value. -/
theorem runs_attempt {p : ProgE Op Ret α} {s : σ} {y : Except String (Except String α)} {t : σ} :
    Runs h (attempt p) s y t ↔ ∃ x, Runs h p s x t ∧ y = .ok x := by
  simp only [Runs, exec_attempt, Option.map_eq_some_iff, Prod.mk.injEq, Prod.exists]
  constructor
  · rintro ⟨n, x, t', hx, rfl, rfl⟩
    exact ⟨x, ⟨n, hx⟩, rfl⟩
  · rintro ⟨x, ⟨n, hx⟩, rfl⟩
    exact ⟨n, x, t, hx, rfl, rfl⟩

theorem runs_attempt_bind {p : ProgE Op Ret α} {f : Except String α → ProgE Op Ret β} {s : σ}
    {r : Except String β} {s' : σ} :
    Runs h (attempt p >>= f) s r s' ↔ ∃ x t, Runs h p s x t ∧ Runs h (f x) t r s' := by
  rw [runs_bind]
  constructor
  · rintro (⟨e, he, -⟩ | ⟨x, t, hp, hf⟩)
    · obtain ⟨x, -, hx⟩ := runs_attempt.mp he
      cases hx
    · obtain ⟨x', hp', hx⟩ := runs_attempt.mp hp
      obtain rfl := Except.ok.inj hx
      exact ⟨x, t, hp', hf⟩
  · rintro ⟨x, t, hp, hf⟩
    exact .inr ⟨x, t, runs_attempt.mpr ⟨x, hp, rfl⟩, hf⟩

/-! ## Loops -/

private theorem loopExec_mono (h : Handler Op Ret σ) {n n' : Nat} (hn : n ≤ n')
    (body : β → ProgE Op Ret (β ⊕ γ)) : ∀ {m m' : Nat}, m ≤ m' → ∀ b s x,
      loopExec h n body m b s = some x → loopExec h n' body m' b s = some x := by
  intro m
  induction m with
  | zero =>
    intro m' _ b s x hx
    simp [loopExec] at hx
  | succ m ih =>
    intro m' hm b s x hx
    obtain ⟨m', rfl⟩ : ∃ k, m' = k + 1 := ⟨m' - 1, by omega⟩
    rw [loopExec] at hx ⊢
    rcases hb : exec h n (body b) s with _ | ⟨e | b' | c, t⟩
    · simp [hb] at hx
    · rw [hb] at hx
      rw [exec_mono h hn _ _ _ hb]
      exact hx
    · rw [hb] at hx
      rw [exec_mono h hn _ _ _ hb]
      exact ih (by omega) b' t x hx
    · rw [hb] at hx
      rw [exec_mono h hn _ _ _ hb]
      exact hx

/-- One iteration of a loop. -/
theorem runs_loop {body : β → ProgE Op Ret (β ⊕ γ)} {b : β} {s : σ} {r : Except String γ}
    {s' : σ} :
    Runs h (loop body b) s r s' ↔
      (∃ e, Runs h (body b) s (.error e) s' ∧ r = .error e) ∨
      (∃ b' t, Runs h (body b) s (.ok (.inl b')) t ∧ Runs h (loop body b') t r s') ∨
      ∃ c, Runs h (body b) s (.ok (.inr c)) s' ∧ r = .ok c := by
  constructor
  · rintro ⟨n, hn⟩
    rw [exec_loop] at hn
    rcases n with _ | n
    · simp [loopExec] at hn
    rw [loopExec] at hn
    rcases hb : exec h (n + 1) (body b) s with _ | ⟨e | b' | c, t⟩
    · simp [hb] at hn
    · rw [hb] at hn
      obtain ⟨rfl, rfl⟩ : .error e = r ∧ t = s' := by simpa using hn
      exact .inl ⟨e, ⟨_, hb⟩, rfl⟩
    · rw [hb] at hn
      refine .inr (.inl ⟨b', t, ⟨_, hb⟩, n + 1, ?_⟩)
      rw [exec_loop]
      exact loopExec_mono h (Nat.le_refl _) body (Nat.le_succ n) b' t _ hn
    · rw [hb] at hn
      obtain ⟨rfl, rfl⟩ : .ok c = r ∧ t = s' := by simpa using hn
      exact .inr (.inr ⟨c, ⟨_, hb⟩, rfl⟩)
  · rintro (⟨e, ⟨n, hb⟩, rfl⟩ | ⟨b', t, ⟨n, hb⟩, m, hm⟩ | ⟨c, ⟨n, hb⟩, rfl⟩)
    · exact ⟨n + 1, by rw [exec_loop, loopExec, exec_mono h (Nat.le_succ n) _ _ _ hb]; rfl⟩
    · refine ⟨max n m + 1, ?_⟩
      rw [exec_loop] at hm ⊢
      rw [loopExec, exec_mono h (Nat.le_succ_of_le (Nat.le_max_left n m)) _ _ _ hb]
      exact loopExec_mono h (by omega) body (Nat.le_max_right n m) b' t _ hm
    · exact ⟨n + 1, by rw [exec_loop, loopExec, exec_mono h (Nat.le_succ n) _ _ _ hb]; rfl⟩

/-! ## Whole runs -/

/-- A loop behind its first round. -/
theorem Runs.loop_next {body : β → ProgE Op Ret (β ⊕ γ)} {b b' : β} {s t : σ}
    {r : Except String γ} {s' : σ} (hb : Runs h (body b) s (.ok (.inl b')) t) :
    Runs h (loop body b) s r s' ↔ Runs h (loop body b') t r s' := by
  rw [runs_loop]
  constructor
  · rintro (⟨e, he, -⟩ | ⟨b₁, t₁, hb₁, hr⟩ | ⟨c, hc, -⟩)
    · cases (hb.unique he).1
    · obtain ⟨heq, rfl⟩ := hb.unique hb₁
      rw [Sum.inl.inj (Except.ok.inj heq)]
      exact hr
    · cases Except.ok.inj (hb.unique hc).1
  · exact fun hr => .inr (.inl ⟨b', t, hb, hr⟩)

/-- A loop whose first round has no outcome. -/
theorem not_runs_loop {body : β → ProgE Op Ret (β ⊕ γ)} {b : β} {s : σ}
    (hb : ∀ r t, ¬ Runs h (body b) s r t) (r : Except String γ) (s' : σ) :
    ¬ Runs h (loop body b) s r s' := by
  intro hr
  rcases runs_loop.mp hr with ⟨e, he, -⟩ | ⟨b', t, hb', -⟩ | ⟨c, hc, -⟩
  · exact hb _ _ he
  · exact hb _ _ hb'
  · exact hb _ _ hc

/-- What every operation keeps, every run keeps. -/
theorem Runs.invariant {I : σ → Prop}
    (hop : ∀ o s r s', I s → h o s = some (r, s') → I s') {p : ProgE Op Ret α} {s : σ}
    {r : Except String α} {s' : σ} (hr : Runs h p s r s') (hI : I s) : I s' := by
  obtain ⟨n, hn⟩ := hr
  exact Prog.run_invariant hop n _ s _ s' hI hn

/-- Related states have related runs. -/
theorem Runs.simulation {h₁ : Handler Op Ret σ₁} {h₂ : Handler Op Ret σ₂} {G : σ₁ → Prop}
    {R : σ₁ → σ₂ → Prop} (sim : Prog.Simulates h₁ h₂ G R) {p : ProgE Op Ret α} {s₁ s₁' : σ₁}
    {s₂ : σ₂} {r : Except String α} (hr : Runs h₁ p s₁ r s₁') (hR : R s₁ s₂) (hG : G s₁') :
    ∃ s₂', Runs h₂ p s₂ r s₂' ∧ R s₁' s₂' := by
  obtain ⟨n, hn⟩ := hr
  obtain ⟨s₂', h₂, hR'⟩ := sim.run_simulation n _ s₁ s₂ r s₁' hR hn hG
  exact ⟨s₂', ⟨n, h₂⟩, hR'⟩

theorem runs_embed {Op' : Type} {Ret' : Op' → Type} {f : Op → Op'}
    {g : ∀ o, Ret' (f o) → Ret o} {h : Handler Op' Ret' σ} {p : ProgE Op Ret α} {s : σ}
    {r : Except String α} {s' : σ} :
    Runs h (embed f g p) s r s' ↔ Runs (Prog.restrict f g h) p s r s' := by
  simp only [Runs, exec_embed]

/-! ## What a program keeps -/

/-- Every run of the program keeps `I`. -/
def Preserves (h : Handler Op Ret σ) (I : σ → Prop) (p : ProgE Op Ret α) : Prop :=
  ∀ s r s', I s → Runs h p s r s' → I s'

namespace Preserves

variable {I : σ → Prop}

theorem pure {a : α} : Preserves h I (pure a : ProgE Op Ret α) := by
  intro s r s' hI hr
  rw [(runs_pure.mp hr).2]
  exact hI

theorem throw {e : String} : Preserves h I (throw e : ProgE Op Ret α) := by
  intro s r s' hI hr
  rw [(runs_throw.mp hr).2]
  exact hI

theorem op {o : Op} (ho : ∀ s r s', I s → h o s = some (r, s') → I s') : Preserves h I (op o) := by
  intro s r s' hI hr
  obtain ⟨a, hs, -⟩ := runs_op.mp hr
  exact ho s a s' hI hs

theorem bind {p : ProgE Op Ret α} {f : α → ProgE Op Ret β} (hp : Preserves h I p)
    (hf : ∀ a, Preserves h I (f a)) : Preserves h I (p >>= f) := by
  intro s r s' hI hr
  rcases runs_bind.mp hr with ⟨e, he, -⟩ | ⟨a, t, ha, hr⟩
  · exact hp s _ s' hI he
  · exact hf a t r s' (hp s _ t hI ha) hr

theorem attempt_bind {p : ProgE Op Ret α} {f : Except String α → ProgE Op Ret β}
    (hp : Preserves h I p) (hf : ∀ a, Preserves h I (f a)) : Preserves h I (attempt p >>= f) := by
  intro s r s' hI hr
  obtain ⟨x, t, hx, hr⟩ := runs_attempt_bind.mp hr
  exact hf x t r s' (hp s x t hI hx) hr

/-- A program of a narrower interface whose operations keep `I`. -/
theorem embed {Op' : Type} {Ret' : Op' → Type} {f : Op → Op'} {g : ∀ o, Ret' (f o) → Ret o}
    {h : Handler Op' Ret' σ} {p : ProgE Op Ret α}
    (ho : ∀ o s r s', I s → h (f o) s = some (r, s') → I s') : Preserves h I (embed f g p) := by
  intro s r s' hI hr
  refine Runs.invariant (fun o s r s' hI hs => ?_) (runs_embed.mp hr) hI
  obtain ⟨⟨r', t⟩, hs', he⟩ := Option.map_eq_some_iff.mp hs
  rw [← (Prod.mk.inj he).2]
  exact ho o s r' t hI hs'

end Preserves

/-! ## What a program spends -/

/-- A run of the program spends at most `n` of what `I` counts. -/
def Spends (h : Handler Op Ret σ) (I : Nat → σ → Prop) (n : Nat) (p : ProgE Op Ret α) : Prop :=
  ∀ b s r s', I (b + n) s → Runs h p s r s' → ∃ b', b ≤ b' ∧ I b' s'

namespace Spends

variable {I : Nat → σ → Prop} {m n : Nat}

theorem pure {a : α} : Spends h I n (pure a : ProgE Op Ret α) := by
  intro b s r s' hI hr
  rw [(runs_pure.mp hr).2]
  exact ⟨b + n, Nat.le_add_right b n, hI⟩

theorem throw {e : String} : Spends h I n (throw e : ProgE Op Ret α) := by
  intro b s r s' hI hr
  rw [(runs_throw.mp hr).2]
  exact ⟨b + n, Nat.le_add_right b n, hI⟩

/-- An operation that costs one, and what follows it. -/
theorem op_bind {o : Op} {f : Ret o → ProgE Op Ret β}
    (ho : ∀ b s r s', I (b + 1) s → h o s = some (r, s') → I b s') (hf : ∀ r, Spends h I n (f r)) :
    Spends h I (n + 1) (op o >>= f) := by
  intro b s r s' hI hr
  obtain ⟨a, s₁, hs, hr'⟩ := runs_op_bind.mp hr
  exact hf a b s₁ r s' (ho (b + n) s a s₁ hI hs) hr'

/-- An operation that costs nothing, and what follows it. -/
theorem free_bind {o : Op} {f : Ret o → ProgE Op Ret β}
    (ho : ∀ b s r s', I b s → h o s = some (r, s') → I b s') (hf : ∀ r, Spends h I n (f r)) :
    Spends h I n (op o >>= f) := by
  intro b s r s' hI hr
  obtain ⟨a, s₁, hs, hr'⟩ := runs_op_bind.mp hr
  exact hf a b s₁ r s' (ho (b + n) s a s₁ hI hs) hr'

theorem bind {p : ProgE Op Ret α} {f : α → ProgE Op Ret β} (hp : Spends h I m p)
    (hf : ∀ a, Spends h I n (f a)) : Spends h I (n + m) (p >>= f) := by
  intro b s r s' hI hr
  rw [← Nat.add_assoc] at hI
  rcases runs_bind.mp hr with ⟨e, he, -⟩ | ⟨a, t, ha, hr'⟩
  · obtain ⟨b', hb, hI'⟩ := hp (b + n) s _ s' hI he
    exact ⟨b', by omega, hI'⟩
  · obtain ⟨b₁, hb₁, hI₁⟩ := hp (b + n) s _ t hI ha
    obtain ⟨c, rfl⟩ : ∃ c, b₁ = c + n := ⟨b₁ - n, by omega⟩
    obtain ⟨b', hb, hI'⟩ := hf a c t r s' hI₁ hr'
    exact ⟨b', by omega, hI'⟩

end Spends

end ProgE

end Agecrypt
