import Agecrypt.Lib.Runs
import Mathlib.Logic.Relation

/-!
# What holds at every moment of a run

`Always h Q p s` says that `Q` holds of every state that a run of `p` from
`s` passes through: before the first operation, between two operations, and
at the end.  The run need not end, and it may stop at an operation that has
no defined outcome.

The rules follow the program: sequence, operation, and for a loop an
invariant of its rounds.
-/

namespace Agecrypt

namespace Prog

variable {Op : Type} {Ret : Op → Type} {α β γ σ : Type}

/-- One round of a loop leads to the next. -/
def Round (step : β → σ → (β ⊕ γ) → σ → Prop) (x y : β × σ) : Prop :=
  step x.1 x.2 (.inl y.1) y.2

/-- Some number of rounds suffices for the outcome. -/
def Ends (h : Handler Op Ret σ) (p : Prog Op Ret α) (s : σ) (a : α) (s' : σ) : Prop :=
  ∃ n, run h n p s = some (a, s')

/-- `Q` holds at every moment of a run. -/
def Always (h : Handler Op Ret σ) (Q : σ → Prop) {α : Type} : Prog Op Ret α → σ → Prop
  | .pure _, s => Q s
  | .call op k, s => Q s ∧ ∀ r s', h op s = some (r, s') → Always h Q (k r) s'
  | .loop body init k, s =>
    ∀ x, Relation.ReflTransGen (Round fun b s a s' => Ends h (body b) s a s') (init, s) x →
      Always h Q (body x.1) x.2 ∧ ∀ c s', Ends h (body x.1) x.2 (.inr c) s' → Always h Q (k c) s'

variable {h : Handler Op Ret σ} {Q : σ → Prop}

theorem Always.start {p : Prog Op Ret α} {s : σ} (hp : Always h Q p s) : Q s := by
  induction p with
  | pure a => exact hp
  | call op k _ => exact hp.1
  | loop body init k ihb _ => exact ihb init (hp (init, s) .refl).1

/-- The rounds of a loop that ended. -/
theorem rounds_of_iterate {step : β → σ → Option ((β ⊕ γ) × σ)} {n : Nat} :
    ∀ {m : Nat} {b : β} {s : σ} {c : γ} {s' : σ}, iterate step m b s = some (c, s') →
      m ≤ n → ∃ x, Relation.ReflTransGen
          (Round fun b s a s' => step b s = some (a, s')) (b, s) x ∧
        step x.1 x.2 = some (.inr c, s') := by
  intro m
  induction m with
  | zero =>
    intro b s c s' h _
    simp [iterate] at h
  | succ m ih =>
    intro b s c s' h hm
    rw [iterate] at h
    rcases hb : step b s with _ | ⟨b' | c', t⟩
    · simp [hb] at h
    · rw [hb] at h
      obtain ⟨x, hx, hc⟩ := ih h (by omega)
      exact ⟨x, .head (b := (b', t)) hb hx, hc⟩
    · rw [hb] at h
      obtain ⟨rfl, rfl⟩ : c' = c ∧ t = s' := by simpa using h
      exact ⟨(b, s), .refl, hb⟩

/-- A loop that ended did so after some rounds. -/
theorem ends_loop {body : β → Prog Op Ret (β ⊕ γ)} {init : β} {k : γ → Prog Op Ret α} {s : σ}
    {a : α} {s' : σ} (he : Ends h (.loop body init k) s a s') :
    ∃ x c t, Relation.ReflTransGen (Round fun b s a s' => Ends h (body b) s a s') (init, s) x ∧
      Ends h (body x.1) x.2 (.inr c) t ∧ Ends h (k c) t a s' := by
  obtain ⟨n, hn⟩ := he
  rw [run] at hn
  rcases hi : iterate (fun b s => run h n (body b) s) n init s with _ | ⟨c, t⟩
  · simp [hi] at hn
  · rw [hi] at hn
    obtain ⟨x, hx, hc⟩ := rounds_of_iterate hi (Nat.le_refl n)
    refine ⟨x, c, t, ?_, ⟨n, hc⟩, ⟨n, hn⟩⟩
    refine Relation.ReflTransGen.mono ?_ _ _ hx
    exact fun x y hxy => ⟨n, hxy⟩

/-- The rounds so far, the last round and what follows, under one bound. -/
theorem ends_loop_of {body : β → Prog Op Ret (β ⊕ γ)} {init : β} {k : γ → Prog Op Ret α}
    {s t s' : σ} {x : β × σ} {c : γ} {a : α}
    (hx : Relation.ReflTransGen (Round fun b s a s' => Ends h (body b) s a s') (init, s) x)
    (hc : Ends h (body x.1) x.2 (.inr c) t) (hk : Ends h (k c) t a s') :
    Ends h (.loop body init k) s a s' := by
  obtain ⟨m, hm⟩ := hc
  obtain ⟨m', hm'⟩ := hk
  have hloop : ∀ y, Relation.ReflTransGen (Round fun b s a s' => Ends h (body b) s a s') y x →
      ∃ n, iterate (fun b s => run h n (body b) s) n y.1 y.2 = some (c, t) := by
    intro y hy
    induction hy using Relation.ReflTransGen.head_induction_on with
    | refl =>
      refine ⟨m + 1, ?_⟩
      rw [iterate, run_mono h (Nat.le_succ m) _ _ _ hm]
    | head hab _ ih =>
      obtain ⟨n, hn⟩ := ih
      obtain ⟨n', hn'⟩ := hab
      refine ⟨max n n' + 1, ?_⟩
      rw [iterate, run_mono h (Nat.le_succ_of_le (Nat.le_max_right n n')) _ _ _ hn']
      exact iterate_mono (fun b s x hx => run_mono h (by omega) _ _ _ hx)
        (Nat.le_max_left n n') _ _ _ hn
  obtain ⟨n, hn⟩ := hloop (init, s) hx
  refine ⟨max n m', ?_⟩
  rw [run, iterate_mono (fun b s x hx => run_mono h (Nat.le_max_left n m') _ _ _ hx)
    (Nat.le_max_left n m') _ _ _ hn]
  exact run_mono h (Nat.le_max_right n m') _ _ _ hm'

/-- A program has one outcome. -/
theorem Ends.unique {p : Prog Op Ret α} {s t u : σ} {a b : α} (ha : Ends h p s a t)
    (hb : Ends h p s b u) : a = b ∧ t = u := by
  obtain ⟨n, hn⟩ := ha
  obtain ⟨m, hm⟩ := hb
  have ha := run_mono h (Nat.le_max_left n m) _ _ _ hn
  have hb := run_mono h (Nat.le_max_right n m) _ _ _ hm
  exact Prod.mk.inj (Option.some.inj (ha.symm.trans hb))

/-- A loop that ends does so from each of its rounds. -/
theorem Ends.of_rounds {body : β → Prog Op Ret (β ⊕ γ)} {init : β} {k : γ → Prog Op Ret α}
    {s s' : σ} {a : α} {x : β × σ} (he : Ends h (.loop body init k) s a s')
    (hx : Relation.ReflTransGen (Round fun b s a s' => Ends h (body b) s a s') (init, s) x) :
    Ends h (.loop body x.1 k) x.2 a s' := by
  obtain ⟨y, c, t, hy, hc, hk⟩ := ends_loop he
  have hunique : Relator.RightUnique (Round fun b s a s' => Ends h (body b) s a s') := by
    intro u v w hv hw
    obtain ⟨hb, hs⟩ := Ends.unique hv hw
    exact Prod.ext (Sum.inl.inj hb) hs
  rcases Relation.ReflTransGen.total_of_right_unique hunique hx hy with hxy | hyx
  · exact ends_loop_of hxy hc hk
  · rcases hyx.cases_head with rfl | ⟨z, hyz, -⟩
    · exact ends_loop_of .refl hc hk
    · cases (Ends.unique hyz hc).1

theorem Always.result {p : Prog Op Ret α} {s s' : σ} {a : α} (hp : Always h Q p s)
    (he : Ends h p s a s') : Q s' := by
  induction p generalizing s with
  | pure b =>
    obtain ⟨n, hn⟩ := he
    obtain ⟨-, rfl⟩ := Prod.mk.inj (Option.some.inj hn)
    exact hp
  | call op k ih =>
    obtain ⟨n, hn⟩ := he
    rw [run] at hn
    rcases ho : h op s with _ | ⟨r, t⟩
    · simp [ho] at hn
    · rw [ho] at hn
      exact ih r (hp.2 r t ho) ⟨n, hn⟩
  | loop body init k _ ihk =>
    obtain ⟨x, c, t, hx, hc, hk⟩ := ends_loop he
    exact ihk c ((hp x hx).2 c t hc) hk

theorem always_bind {p : Prog Op Ret α} {f : α → Prog Op Ret β} {s : σ} :
    Always h Q (p >>= f) s ↔
      Always h Q p s ∧ ∀ a s', Ends h p s a s' → Always h Q (f a) s' := by
  change Always h Q (p.bind f) s ↔ _
  induction p generalizing s with
  | pure a =>
    constructor
    · refine fun hf => ⟨hf.start, fun a' s' he => ?_⟩
      obtain ⟨n, hn⟩ := he
      obtain ⟨rfl, rfl⟩ := Prod.mk.inj (Option.some.inj hn)
      exact hf
    · exact fun hf => hf.2 a s ⟨0, rfl⟩
  | call op k ih =>
    constructor
    · rintro ⟨hq, hk⟩
      refine ⟨⟨hq, fun r s' ho => ((ih r).mp (hk r s' ho)).1⟩, fun a s' he => ?_⟩
      obtain ⟨n, hn⟩ := he
      rw [run] at hn
      rcases ho : h op s with _ | ⟨r, t⟩
      · simp [ho] at hn
      · rw [ho] at hn
        exact ((ih r).mp (hk r t ho)).2 a s' ⟨n, hn⟩
    · rintro ⟨⟨hq, hk⟩, hf⟩
      refine ⟨hq, fun r s' ho => (ih r).mpr ⟨hk r s' ho, fun a t he => ?_⟩⟩
      obtain ⟨n, hn⟩ := he
      refine hf a t ⟨n, ?_⟩
      rw [run, ho]
      exact hn
  | loop body init k _ ihk =>
    constructor
    · intro hall
      refine ⟨fun x hx => ⟨(hall x hx).1, fun c s' hc => ((ihk c).mp ((hall x hx).2 c s' hc)).1⟩,
        fun a s' he => ?_⟩
      obtain ⟨x, c, t, hx, hc, hk⟩ := ends_loop he
      exact ((ihk c).mp ((hall x hx).2 c t hc)).2 a s' hk
    · rintro ⟨hall, hf⟩ x hx
      refine ⟨(hall x hx).1, fun c s' hc => (ihk c).mpr ⟨(hall x hx).2 c s' hc, fun a t hk => ?_⟩⟩
      exact hf a t (ends_loop_of hx hc hk)

theorem Always.mono {Q' : σ → Prop} (hQ : ∀ s, Q s → Q' s) {p : Prog Op Ret α} {s : σ}
    (hp : Always h Q p s) : Always h Q' p s := by
  induction p generalizing s with
  | pure a => exact hQ s hp
  | call op k ih => exact ⟨hQ s hp.1, fun r s' ho => ih r (hp.2 r s' ho)⟩
  | loop body init k ihb ihk =>
    exact fun x hx => ⟨ihb x.1 (hp x hx).1, fun c s' hc => ihk c ((hp x hx).2 c s' hc)⟩

theorem Always.and {Q' : σ → Prop} {p : Prog Op Ret α} {s : σ} (hp : Always h Q p s)
    (hp' : Always h Q' p s) : Always h (fun s => Q s ∧ Q' s) p s := by
  induction p generalizing s with
  | pure a => exact ⟨hp, hp'⟩
  | call op k ih => exact ⟨⟨hp.1, hp'.1⟩, fun r t ho => ih r (hp.2 r t ho) (hp'.2 r t ho)⟩
  | loop body init k ihb ihk =>
    intro x hx
    exact ⟨ihb x.1 (hp x hx).1 (hp' x hx).1,
      fun c t hc => ihk c ((hp x hx).2 c t hc) ((hp' x hx).2 c t hc)⟩

/-- What every operation keeps holds at every moment. -/
theorem always_of_ops (hop : ∀ op s r s', Q s → h op s = some (r, s') → Q s')
    {p : Prog Op Ret α} {s : σ} (hQ : Q s) : Always h Q p s := by
  induction p generalizing s with
  | pure a => exact hQ
  | call op k ih => exact ⟨hQ, fun r s' ho => ih r (hop op s r s' hQ ho)⟩
  | loop body init k ihb ihk =>
    intro x hx
    have hround : Q x.2 := by
      induction hx with
      | refl => exact hQ
      | tail _ hyz ih =>
        obtain ⟨n, hn⟩ := hyz
        exact run_invariant hop n _ _ _ _ ih hn
    refine ⟨ihb x.1 hround, fun c s' hc => ihk c ?_⟩
    obtain ⟨n, hn⟩ := hc
    exact run_invariant hop n _ _ _ _ hround hn

theorem always_embed {Op' : Type} {Ret' : Op' → Type} {f : Op → Op'}
    {g : ∀ op, Ret' (f op) → Ret op} {h : Handler Op' Ret' σ} {p : Prog Op Ret α} {s : σ} :
    Always h Q (p.embed f g) s ↔ Always (restrict f g h) Q p s := by
  induction p generalizing s with
  | pure a => exact Iff.rfl
  | call op k ih =>
    refine and_congr_right fun _ => ⟨fun hk r s' ho => ?_, fun hk r s' ho => ?_⟩
    · obtain ⟨⟨r', t⟩, ho', hr⟩ := Option.map_eq_some_iff.mp ho
      obtain ⟨rfl, rfl⟩ := Prod.mk.inj hr
      exact (ih _).mp (hk r' t ho')
    · exact (ih _).mpr (hk _ s' (by rw [restrict, ho]; rfl))
  | loop body init k ihb ihk =>
    have hends : ∀ b s a s', Ends h ((body b).embed f g) s a s' ↔
        Ends (restrict f g h) (body b) s a s' := by
      intro b s a s'
      simp only [Ends, run_embed]
    simp only [embed, Always, hends, ihb, ihk]

end Prog

/-! ## Programs that may return an error text -/

namespace ProgE

variable {Op : Type} {Ret : Op → Type} {α β γ σ : Type} {h : Handler Op Ret σ} {Q : σ → Prop}

/-- `Q` holds at every moment of a run. -/
def Always (h : Handler Op Ret σ) (Q : σ → Prop) (p : ProgE Op Ret α) (s : σ) : Prop :=
  Prog.Always h Q (ExceptT.run p) s

@[simp] theorem always_pure {a : α} {s : σ} :
    Always h Q (pure a : ProgE Op Ret α) s ↔ Q s := Iff.rfl

@[simp] theorem always_throw {e : String} {s : σ} :
    Always h Q (throw e : ProgE Op Ret α) s ↔ Q s := Iff.rfl

theorem Always.result {p : ProgE Op Ret α} {s s' : σ} {r : Except String α}
    (hp : Always h Q p s) (hr : Runs h p s r s') : Q s' := Prog.Always.result hp hr

theorem Always.start {p : ProgE Op Ret α} {s : σ} (hp : Always h Q p s) : Q s :=
  Prog.Always.start hp

/-- A program in sequence with another. -/
theorem always_bind {p : ProgE Op Ret α} {f : α → ProgE Op Ret β} {s : σ} :
    Always h Q (p >>= f) s ↔
      Always h Q p s ∧ ∀ a s', Runs h p s (.ok a) s' → Always h Q (f a) s' := by
  change Prog.Always h Q (ExceptT.run p >>= ExceptT.bindCont f) s ↔ _
  rw [Prog.always_bind]
  refine and_congr_right fun hp => ⟨fun hf a s' hr => hf (.ok a) s' hr, fun hf r s' hr => ?_⟩
  rcases r with e | a
  · exact Prog.Always.result hp hr
  · exact hf a s' hr

theorem always_op_bind {o : Op} {f : Ret o → ProgE Op Ret β} {s : σ} :
    Always h Q (op o >>= f) s ↔
      Q s ∧ ∀ r s', h o s = some (r, s') → Always h Q (f r) s' := by
  rw [always_bind]
  constructor
  · rintro ⟨hq, hf⟩
    exact ⟨hq.start, fun r s' ho => hf r s' (runs_op.mpr ⟨r, ho, rfl⟩)⟩
  · rintro ⟨hq, hf⟩
    refine ⟨⟨hq, fun r s' ho => (hf r s' ho).start⟩, fun a s' hr => ?_⟩
    obtain ⟨r, ho, ha⟩ := runs_op.mp hr
    obtain rfl := Except.ok.inj ha
    exact hf a s' ho

theorem always_embed {Op' : Type} {Ret' : Op' → Type} {f : Op → Op'}
    {g : ∀ o, Ret' (f o) → Ret o} {h : Handler Op' Ret' σ} {p : ProgE Op Ret α} {s : σ} :
    Always h Q (embed f g p) s ↔ Always (Prog.restrict f g h) Q p s := Prog.always_embed

/-- A program whose error is kept as a value. -/
theorem always_attempt {p : ProgE Op Ret α} {s : σ} :
    Always h Q (attempt p) s ↔ Always h Q p s := by
  change Prog.Always h Q (ExceptT.run p >>= fun a => pure (Except.ok a)) s ↔ _
  rw [Prog.always_bind]
  exact ⟨fun hp => hp.1, fun hp => ⟨hp, fun a s' he => Prog.Always.result hp he⟩⟩

/-- Every round of a loop keeps the invariant `I`. -/
def Rounds (h : Handler Op Ret σ) (body : β → ProgE Op Ret (β ⊕ γ)) (I : β → σ → Prop) : Prop :=
  ∀ b s b' s', I b s → Runs h (body b) s (.ok (.inl b')) s' → I b' s'

/-- What a round hands to the loop. -/
private def handed : Except String (β ⊕ γ) → β ⊕ Except String γ
  | .error e => .inr (.error e)
  | .ok (.inl b) => .inl b
  | .ok (.inr c) => .inr (.ok c)

private theorem ends_round {body : β → ProgE Op Ret (β ⊕ γ)} {b : β} {s s' : σ}
    {a : β ⊕ Except String γ}
    (he : Prog.Ends h (ExceptT.run (body b) >>= fun
      | .error e => pure (.inr (.error e))
      | .ok (.inl b') => pure (.inl b')
      | .ok (.inr c) => pure (.inr (.ok c))) s a s') :
    ∃ r, Runs h (body b) s r s' ∧ handed r = a := by
  obtain ⟨n, hn⟩ := he
  rw [Prog.run_bind] at hn
  rcases hb : Prog.run h n (ExceptT.run (body b)) s with _ | ⟨e | b' | c, t⟩
  · simp [hb] at hn
  all_goals
    rw [hb] at hn
    obtain ⟨rfl, rfl⟩ := Prod.mk.inj (Option.some.inj hn)
    exact ⟨_, ⟨n, hb⟩, rfl⟩

/-- One round of a loop. -/
theorem runs_of_round {body : β → ProgE Op Ret (β ⊕ γ)} {y z : β × σ}
    (hyz : Prog.Ends h (ExceptT.run (body y.1) >>= fun
      | .error e => pure (.inr (.error e))
      | .ok (.inl b') => pure (.inl b')
      | .ok (.inr c) => pure (.inr (.ok c))) y.2 (.inl z.1 : β ⊕ Except String γ) z.2) :
    Runs h (body y.1) y.2 (.ok (.inl z.1)) z.2 := by
  obtain ⟨r, hr, hz⟩ := ends_round hyz
  rcases r with e | b' | c
  · cases hz
  · obtain rfl := Sum.inl.inj hz
    exact hr
  · cases hz

/-- A loop, by an invariant of its rounds. -/
theorem always_loop {body : β → ProgE Op Ret (β ⊕ γ)} {I : β → σ → Prop}
    (hround : Rounds h body I) (hbody : ∀ b s, I b s → Always h Q (body b) s) {b : β} {s : σ}
    (hI : I b s) : Always h Q (loop body b) s := by
  intro x hx
  have key : I x.1 x.2 := by
    induction hx with
    | refl => exact hI
    | tail _ hyz ih => exact hround _ _ _ _ ih (runs_of_round hyz)
  refine ⟨Prog.always_bind.mpr ⟨hbody x.1 x.2 key, ?_⟩, fun c s' hc => ?_⟩
  · rintro (e | b' | c) s' he <;> exact (hbody x.1 x.2 key).result he
  · obtain ⟨r, hr, -⟩ := ends_round hc
    exact (hbody x.1 x.2 key).result hr

/-- The last round of a loop, by an invariant of its rounds. -/
theorem Runs.last_round {body : β → ProgE Op Ret (β ⊕ γ)} {I : β → σ → Prop}
    (hround : Rounds h body I) {b : β} {s : σ} {r : Except String γ} {s' : σ}
    (hr : Runs h (loop body b) s r s') (hI : I b s) :
    ∃ b t, I b t ∧ ((∃ e, Runs h (body b) t (.error e) s' ∧ r = .error e) ∨
      ∃ c, Runs h (body b) t (.ok (.inr c)) s' ∧ r = .ok c) := by
  obtain ⟨n, hn⟩ := hr
  rw [exec_loop] at hn
  have key : ∀ m b s, I b s → loopExec h n body m b s = some (r, s') →
      ∃ b t, I b t ∧ ((∃ e, Runs h (body b) t (.error e) s' ∧ r = .error e) ∨
        ∃ c, Runs h (body b) t (.ok (.inr c)) s' ∧ r = .ok c) := by
    intro m
    induction m with
    | zero =>
      intro b s _ hm
      simp [loopExec] at hm
    | succ m ih =>
      intro b s hI hm
      rw [loopExec] at hm
      rcases hb : exec h n (body b) s with _ | ⟨e | b' | c, t⟩
      · simp [hb] at hm
      · rw [hb] at hm
        obtain ⟨rfl, rfl⟩ : .error e = r ∧ t = s' := by simpa using hm
        exact ⟨b, s, hI, .inl ⟨e, ⟨n, hb⟩, rfl⟩⟩
      · rw [hb] at hm
        exact ih b' t (hround b s b' t hI ⟨n, hb⟩) hm
      · rw [hb] at hm
        obtain ⟨rfl, rfl⟩ : .ok c = r ∧ t = s' := by simpa using hm
        exact ⟨b, s, hI, .inr ⟨c, ⟨n, hb⟩, rfl⟩⟩
  exact key n b s hI hn

/-! ## Moments and outcomes together -/

/-- `Q` holds at every moment of a run, and `Post` of its outcome. -/
structure Meets (h : Handler Op Ret σ) (Q : σ → Prop) (p : ProgE Op Ret α) (s : σ)
    (Post : Except String α → σ → Prop) : Prop where
  always : Always h Q p s
  post : ∀ r s', Runs h p s r s' → Post r s'

namespace Meets

variable {Post : Except String α → σ → Prop} {s : σ}

theorem pure {a : α} (hq : Q s) (hp : Post (.ok a) s) : Meets h Q (pure a) s Post := by
  refine ⟨hq, fun r s' hr => ?_⟩
  obtain ⟨rfl, rfl⟩ := runs_pure.mp hr
  exact hp

theorem throw {e : String} (hq : Q s) (hp : Post (.error e) s) :
    Meets h Q (throw e : ProgE Op Ret α) s Post := by
  refine ⟨hq, fun r s' hr => ?_⟩
  obtain ⟨rfl, rfl⟩ := runs_throw.mp hr
  exact hp

theorem of_op {o : Op} {Post : Except String (Ret o) → σ → Prop} (hq : Q s)
    (ho : ∀ r s', h o s = some (r, s') → Q s' ∧ Post (.ok r) s') :
    Meets h Q (op o) s Post := by
  refine ⟨⟨hq, fun r s' hs => (ho r s' hs).1⟩, fun r s' hr => ?_⟩
  obtain ⟨a, hs, rfl⟩ := runs_op.mp hr
  exact (ho a s' hs).2

theorem op_bind {o : Op} {f : Ret o → ProgE Op Ret α} (hq : Q s)
    (hf : ∀ r s', h o s = some (r, s') → Meets h Q (f r) s' Post) :
    Meets h Q (op o >>= f) s Post := by
  refine ⟨always_op_bind.mpr ⟨hq, fun r s' ho => (hf r s' ho).always⟩, fun r s' hr => ?_⟩
  obtain ⟨a, t, ho, hr'⟩ := runs_op_bind.mp hr
  exact (hf a t ho).post r s' hr'

/-- A program in sequence with another. -/
theorem bind {p : ProgE Op Ret β} {f : β → ProgE Op Ret α} {Mid : Except String β → σ → Prop}
    (hp : Meets h Q p s Mid) (herr : ∀ e s', Mid (.error e) s' → Post (.error e) s')
    (hok : ∀ a s', Mid (.ok a) s' → Meets h Q (f a) s' Post) : Meets h Q (p >>= f) s Post := by
  refine ⟨always_bind.mpr ⟨hp.always, fun a s' hr => (hok a s' (hp.post _ _ hr)).always⟩,
    fun r s' hr => ?_⟩
  rcases runs_bind.mp hr with ⟨e, he, rfl⟩ | ⟨a, t, ha, hr'⟩
  · exact herr e s' (hp.post _ _ he)
  · exact (hok a t (hp.post _ _ ha)).post r s' hr'

theorem attempt_bind {p : ProgE Op Ret β} {f : Except String β → ProgE Op Ret α}
    {Mid : Except String β → σ → Prop} (hp : Meets h Q p s Mid)
    (hf : ∀ x s', Mid x s' → Meets h Q (f x) s' Post) : Meets h Q (attempt p >>= f) s Post := by
  refine ⟨always_bind.mpr ⟨always_attempt.mpr hp.always, fun x s' hr => ?_⟩, fun r s' hr => ?_⟩
  · obtain ⟨y, hy, hxy⟩ := runs_attempt.mp hr
    rw [Except.ok.inj hxy]
    exact (hf y s' (hp.post y s' hy)).always
  · obtain ⟨x, t, hx, hr⟩ := runs_attempt_bind.mp hr
    exact (hf x t (hp.post x t hx)).post r s' hr

/-- A loop, by an invariant of its rounds. -/
theorem loop {body : β → ProgE Op Ret (β ⊕ α)} {I : β → σ → Prop}
    (hbody : ∀ b s, I b s → Meets h Q (body b) s fun r s' =>
      match r with
      | .error e => Post (.error e) s'
      | .ok (.inl b') => I b' s'
      | .ok (.inr c) => Post (.ok c) s') {b : β} (hI : I b s) :
    Meets h Q (loop body b) s Post := by
  have hround : Rounds h body I := fun b s b' s' hI hr => (hbody b s hI).post _ _ hr
  refine ⟨always_loop hround (fun b s hI => (hbody b s hI).always) hI, fun r s' hr => ?_⟩
  obtain ⟨b', t, hI', hlast⟩ := hr.last_round hround hI
  rcases hlast with ⟨e, he, rfl⟩ | ⟨c, hc, rfl⟩
  · exact (hbody b' t hI').post _ _ he
  · exact (hbody b' t hI').post _ _ hc

theorem weaken {Q' : σ → Prop} {p : ProgE Op Ret α} (hQ : ∀ s, Q s → Q' s)
    (hp : Meets h Q p s Post) : Meets h Q' p s Post :=
  ⟨Prog.Always.mono hQ hp.always, hp.post⟩

/-- What every operation keeps. -/
theorem of_ops (hop : ∀ o s r s', Q s → h o s = some (r, s') → Q s') {p : ProgE Op Ret α}
    (hQ : Q s) : Meets h Q p s fun _ s' => Q s' :=
  ⟨Prog.always_of_ops hop hQ, fun _ _ hr => hr.invariant hop hQ⟩

/-- A program of a narrower interface. -/
theorem embed {Op' : Type} {Ret' : Op' → Type} {f : Op → Op'} {g : ∀ o, Ret' (f o) → Ret o}
    {h : Handler Op' Ret' σ} {p : ProgE Op Ret α}
    (hp : Meets (Prog.restrict f g h) Q p s Post) : Meets h Q (ProgE.embed f g p) s Post :=
  ⟨always_embed.mpr hp.always, fun r s' hr => hp.post r s' (runs_embed.mp hr)⟩

theorem mono {Post' : Except String α → σ → Prop} {p : ProgE Op Ret α}
    (hp : Meets h Q p s Post) (hpost : ∀ r s', Post r s' → Post' r s') : Meets h Q p s Post' :=
  ⟨hp.always, fun r s' hr => hpost r s' (hp.post r s' hr)⟩

end Meets

end ProgE

end Agecrypt
