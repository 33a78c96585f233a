import Agecrypt.Lib.Always

/-!
# Programs that give up at a failure

Some answers of an operation are failures.  `Faces h E p s` says that the
run of `p` from `s` comes to an answer in `E`, whether or not it ends.
`Heeds h E R p s` says that such a run ends, with an outcome in `R`: the
program takes notice of the first failure, and what it does then is decided.

As for `Always`, the rules follow the program.
-/

namespace Agecrypt

namespace Prog

variable {Op : Type} {Ret : Op → Type} {α β γ σ : Type}

/-- The run comes to an answer in `E`. -/
def Faces (h : Handler Op Ret σ) (E : (op : Op) → σ → Ret op → σ → Prop) {α : Type} :
    Prog Op Ret α → σ → Prop
  | .pure _, _ => False
  | .call op k, s => ∃ r s', h op s = some (r, s') ∧ (E op s r s' ∨ Faces h E (k r) s')
  | .loop body init k, s =>
    ∃ x, Relation.ReflTransGen (Round fun b s a s' => Ends h (body b) s a s') (init, s) x ∧
      (Faces h E (body x.1) x.2 ∨ ∃ c s', Ends h (body x.1) x.2 (.inr c) s' ∧ Faces h E (k c) s')

variable {h : Handler Op Ret σ} {E E' : (op : Op) → σ → Ret op → σ → Prop}

theorem faces_bind {p : Prog Op Ret α} {f : α → Prog Op Ret β} {s : σ} :
    Faces h E (p >>= f) s ↔ Faces h E p s ∨ ∃ a s', Ends h p s a s' ∧ Faces h E (f a) s' := by
  change Faces h E (p.bind f) s ↔ _
  induction p generalizing s with
  | pure a =>
    constructor
    · exact fun hf => .inr ⟨a, s, ⟨0, rfl⟩, hf⟩
    · rintro (hp | ⟨a', s', ⟨n, hn⟩, hf⟩)
      · exact hp.elim
      · obtain ⟨rfl, rfl⟩ := Prod.mk.inj (Option.some.inj hn)
        exact hf
  | call op k ih =>
    constructor
    · rintro ⟨r, t, ho, hE | hk⟩
      · exact .inl ⟨r, t, ho, .inl hE⟩
      rcases (ih r).mp hk with hk | ⟨a, s', ⟨n, hn⟩, hf⟩
      · exact .inl ⟨r, t, ho, .inr hk⟩
      · exact .inr ⟨a, s', ⟨n, by rw [run, ho]; exact hn⟩, hf⟩
    · rintro (⟨r, t, ho, hE | hk⟩ | ⟨a, s', ⟨n, hn⟩, hf⟩)
      · exact ⟨r, t, ho, .inl hE⟩
      · exact ⟨r, t, ho, .inr ((ih r).mpr (.inl hk))⟩
      · rw [run] at hn
        rcases ho : h op s with _ | ⟨r, t⟩
        · simp [ho] at hn
        · rw [ho] at hn
          exact ⟨r, t, ho, .inr ((ih r).mpr (.inr ⟨a, s', ⟨n, hn⟩, hf⟩))⟩
  | loop body init k _ ihk =>
    constructor
    · rintro ⟨x, hx, hb | ⟨c, t, hc, hk⟩⟩
      · exact .inl ⟨x, hx, .inl hb⟩
      rcases (ihk c).mp hk with hk | ⟨a, s', he, hf⟩
      · exact .inl ⟨x, hx, .inr ⟨c, t, hc, hk⟩⟩
      · exact .inr ⟨a, s', ends_loop_of hx hc he, hf⟩
    · rintro (⟨x, hx, hb | ⟨c, t, hc, hk⟩⟩ | ⟨a, s', he, hf⟩)
      · exact ⟨x, hx, .inl hb⟩
      · exact ⟨x, hx, .inr ⟨c, t, hc, (ihk c).mpr (.inl hk)⟩⟩
      · obtain ⟨x, c, t, hx, hc, hk⟩ := ends_loop he
        exact ⟨x, hx, .inr ⟨c, t, hc, (ihk c).mpr (.inr ⟨a, s', hk, hf⟩)⟩⟩

/-- A program of a narrower interface. -/
theorem Faces.of_embed {Op' : Type} {Ret' : Op' → Type} {f : Op → Op'}
    {g : ∀ op, Ret' (f op) → Ret op} {h : Handler Op' Ret' σ}
    {E' : (op : Op') → σ → Ret' op → σ → Prop}
    (hE : ∀ op s r s', E' (f op) s r s' → E op s (g op r) s') {p : Prog Op Ret α} {s : σ}
    (hp : Faces h E' (p.embed f g) s) : Faces (restrict f g h) E p s := by
  induction p generalizing s with
  | pure a => exact hp
  | call op k ih =>
    obtain ⟨r, t, ho, hp⟩ := hp
    have ho' : restrict f g h op s = some (g op r, t) := by rw [restrict, ho]; rfl
    exact ⟨g op r, t, ho', hp.imp (hE op s r t) (ih (g op r))⟩
  | loop body init k ihb ihk =>
    have hends : ∀ b s a s', Ends h ((body b).embed f g) s a s' ↔
        Ends (restrict f g h) (body b) s a s' := by
      intro b s a s'
      simp only [Ends, run_embed]
    obtain ⟨x, hx, hp⟩ := hp
    simp only [hends] at hx hp
    refine ⟨x, hx, hp.imp (ihb x.1) ?_⟩
    rintro ⟨c, t, hc, hk⟩
    exact ⟨c, t, hc, ihk c hk⟩

/-- Failures of one kind are failures of another, in the states that a run
comes to. -/
theorem Faces.imp {Q : σ → Prop} (hop : ∀ op s r s', Q s → h op s = some (r, s') → Q s')
    (hE : ∀ op s r s', Q s → h op s = some (r, s') → E op s r s' → E' op s r s')
    {p : Prog Op Ret α} {s : σ} (hQ : Q s) (hp : Faces h E p s) : Faces h E' p s := by
  have hends : ∀ {β : Type} {p : Prog Op Ret β} {s s' : σ} {b : β}, Q s → Ends h p s b s' → Q s' :=
    fun hQ he => (always_of_ops hop hQ).result he
  induction p generalizing s with
  | pure a => exact hp
  | call op k ih =>
    obtain ⟨r, t, ho, hp⟩ := hp
    exact ⟨r, t, ho, hp.imp (hE op s r t hQ ho) (ih r (hop op s r t hQ ho))⟩
  | loop body init k ihb ihk =>
    obtain ⟨x, hx, hp⟩ := hp
    have hQx : Q x.2 := by
      clear hp
      induction hx with
      | refl => exact hQ
      | tail _ hyz ih => exact hends ih hyz
    refine ⟨x, hx, hp.imp (ihb x.1 hQx) ?_⟩
    rintro ⟨c, t, hc, hk⟩
    exact ⟨c, t, hc, ihk c (hends hQx hc) hk⟩

/-- Where no answer is a failure, no run comes to one. -/
theorem not_faces {p : Prog Op Ret α} : ∀ {s : σ}, ¬ Faces h (fun _ _ _ _ => False) p s := by
  induction p with
  | pure b => exact id
  | call op k ih =>
    rintro s ⟨r, t, -, hf | hf⟩
    · exact hf
    · exact ih r hf
  | loop body init k ihb ihk =>
    rintro s ⟨x, -, hf | ⟨c, t, -, hf⟩⟩
    · exact ihb x.1 hf
    · exact ihk c hf

/-- What every failure leaves behind and every later operation keeps holds
at the end of a run that met one. -/
theorem Faces.result {Q : σ → Prop} (hop : ∀ op s r s', Q s → h op s = some (r, s') → Q s')
    (hE : ∀ op s r s', h op s = some (r, s') → E op s r s' → Q s')
    {p : Prog Op Ret α} {s s' : σ} {a : α} (hp : Faces h E p s) (he : Ends h p s a s') : Q s' := by
  induction p generalizing s s' with
  | pure b => exact hp.elim
  | call op k ih =>
    obtain ⟨r, t, ho, hp⟩ := hp
    obtain ⟨n, hn⟩ := he
    rw [run, ho] at hn
    rcases hp with hp | hp
    · exact (always_of_ops hop (hE op s r t ho hp)).result ⟨n, hn⟩
    · exact ih r hp ⟨n, hn⟩
  | loop body init k ihb ihk =>
    obtain ⟨x, hx, hp⟩ := hp
    replace he := he.of_rounds hx
    obtain ⟨y, c, t, hy, hc, hk⟩ := ends_loop he
    rcases hp with hp | ⟨c', t', hc', hp⟩ <;> rcases hy.cases_head with rfl | ⟨z, hxz, -⟩
    · exact (always_of_ops hop (ihb _ hp hc)).result hk
    · exact (always_of_ops hop (ihb _ hp hxz)).result (he.of_rounds (.single hxz))
    · obtain ⟨hcc, rfl⟩ := hc.unique hc'
      obtain rfl := Sum.inr.inj hcc
      exact ihk c hp hk
    · cases (Ends.unique hxz hc').1

/-- What every other answer keeps, a run without failures keeps. -/
theorem Ends.of_not_faces {Q : σ → Prop}
    (hop : ∀ op s r s', Q s → h op s = some (r, s') → ¬ E op s r s' → Q s')
    {p : Prog Op Ret α} {s s' : σ} {a : α} (hQ : Q s) (hp : ¬ Faces h E p s)
    (he : Ends h p s a s') : Q s' := by
  induction p generalizing s s' with
  | pure b =>
    obtain ⟨n, hn⟩ := he
    obtain ⟨-, rfl⟩ := Prod.mk.inj (Option.some.inj hn)
    exact hQ
  | call op k ih =>
    obtain ⟨n, hn⟩ := he
    rw [run] at hn
    rcases ho : h op s with _ | ⟨r, t⟩
    · simp [ho] at hn
    · rw [ho] at hn
      have hnot : ¬ E op s r t := fun hE => hp ⟨r, t, ho, .inl hE⟩
      exact ih r (hop op s r t hQ ho hnot) (fun hk => hp ⟨r, t, ho, .inr hk⟩) ⟨n, hn⟩
  | loop body init k ihb ihk =>
    obtain ⟨x, c, t, hx, hc, hk⟩ := ends_loop he
    have hbody : ∀ y, Relation.ReflTransGen
        (Round fun b s a s' => Ends h (body b) s a s') (init, s) y →
        ¬ Faces h E (body y.1) y.2 := fun y hy hb => hp ⟨y, hy, .inl hb⟩
    have hround : ∀ y, Relation.ReflTransGen
        (Round fun b s a s' => Ends h (body b) s a s') (init, s) y → Q y.2 := by
      intro y hy
      induction hy with
      | refl => exact hQ
      | @tail y z hy hyz ih => exact ihb y.1 ih (hbody y hy) hyz
    have hlast : ¬ Faces h E (k c) t := fun hk => hp ⟨x, hx, .inr ⟨c, t, hc, hk⟩⟩
    exact ihk c (ihb x.1 (hround x hx) (hbody x hx) hc) hlast hk

end Prog

namespace ProgE

variable {Op : Type} {Ret : Op → Type} {α β γ σ : Type} {h : Handler Op Ret σ}
  {E : (op : Op) → σ → Ret op → σ → Prop}

/-- The run comes to an answer in `E`. -/
def Faces (h : Handler Op Ret σ) (E : (op : Op) → σ → Ret op → σ → Prop) (p : ProgE Op Ret α)
    (s : σ) : Prop :=
  Prog.Faces h E (ExceptT.run p) s

theorem faces_bind {p : ProgE Op Ret α} {f : α → ProgE Op Ret β} {s : σ} :
    Faces h E (p >>= f) s ↔
      Faces h E p s ∨ ∃ a s', Runs h p s (.ok a) s' ∧ Faces h E (f a) s' := by
  change Prog.Faces h E (ExceptT.run p >>= ExceptT.bindCont f) s ↔ _
  rw [Prog.faces_bind]
  refine or_congr_right ⟨?_, fun ⟨a, s', hr, hf⟩ => ⟨.ok a, s', hr, hf⟩⟩
  rintro ⟨e | a, s', hr, hf⟩
  · exact hf.elim
  · exact ⟨a, s', hr, hf⟩

theorem faces_op {o : Op} {s : σ} :
    Faces h E (op o) s ↔ ∃ r s', h o s = some (r, s') ∧ E o s r s' := by
  constructor
  · rintro ⟨r, s', ho, hE | hk⟩
    · exact ⟨r, s', ho, hE⟩
    · exact hk.elim
  · rintro ⟨r, s', ho, hE⟩
    exact ⟨r, s', ho, .inl hE⟩

theorem faces_attempt {p : ProgE Op Ret α} {s : σ} :
    Faces h E (attempt p) s ↔ Faces h E p s := by
  change Prog.Faces h E (ExceptT.run p >>= fun a => pure (Except.ok a)) s ↔ _
  rw [Prog.faces_bind]
  exact or_iff_left fun ⟨_, _, _, hf⟩ => hf

/-- What every other answer keeps, a run without failures keeps. -/
theorem Runs.of_not_faces {Q : σ → Prop}
    (hop : ∀ o s r s', Q s → h o s = some (r, s') → ¬ E o s r s' → Q s')
    {p : ProgE Op Ret α} {s s' : σ} {r : Except String α} (hr : Runs h p s r s')
    (hp : ¬ Faces h E p s) (hQ : Q s) : Q s' := Prog.Ends.of_not_faces hop hQ hp hr

/-- Failures of one kind are failures of another, in the states that a run
comes to. -/
theorem Faces.imp {E' : (op : Op) → σ → Ret op → σ → Prop} {Q : σ → Prop}
    (hop : ∀ o s r s', Q s → h o s = some (r, s') → Q s')
    (hE : ∀ o s r s', Q s → h o s = some (r, s') → E o s r s' → E' o s r s')
    {p : ProgE Op Ret α} {s : σ} (hQ : Q s) (hp : Faces h E p s) : Faces h E' p s :=
  Prog.Faces.imp hop hE hQ hp

/-- What every failure leaves behind and every later operation keeps holds
at the end of a run that met one. -/
theorem Faces.result {Q : σ → Prop} (hop : ∀ o s r s', Q s → h o s = some (r, s') → Q s')
    (hE : ∀ o s r s', h o s = some (r, s') → E o s r s' → Q s')
    {p : ProgE Op Ret α} {s s' : σ} {r : Except String α} (hp : Faces h E p s)
    (hr : Runs h p s r s') : Q s' :=
  Prog.Faces.result hop hE hp hr

/-- The program ends with an outcome in `R`. -/
def Gives (h : Handler Op Ret σ) (R : Except String α → Prop) (p : ProgE Op Ret α) (s : σ) :
    Prop :=
  ∃ r s', Runs h p s r s' ∧ R r

/-- A run that comes to a failure ends with an outcome in `R`. -/
def Heeds (h : Handler Op Ret σ) (E : (op : Op) → σ → Ret op → σ → Prop)
    (R : Except String α → Prop) (p : ProgE Op Ret α) (s : σ) : Prop :=
  Faces h E p s → Gives h R p s

/-- The outcome is an error. -/
def IsError : Except String α → Prop
  | .error _ => True
  | .ok _ => False

namespace Gives

variable {R : Except String α → Prop} {s : σ}

theorem pure {a : α} (ha : R (.ok a)) : Gives h R (pure a) s :=
  ⟨.ok a, s, runs_pure.mpr ⟨rfl, rfl⟩, ha⟩

theorem throw {e : String} (he : R (.error e)) : Gives h R (throw e : ProgE Op Ret α) s :=
  ⟨.error e, s, runs_throw.mpr ⟨rfl, rfl⟩, he⟩

/-- Behind an operation whose answer is known. -/
theorem op_bind {o : Op} {f : Ret o → ProgE Op Ret α} {a : Ret o} {t : σ}
    (ho : h o s = some (a, t)) (hf : Gives h R (f a) t) : Gives h R (op o >>= f) s := by
  obtain ⟨r, s', hr, hR⟩ := hf
  exact ⟨r, s', (runs_op_bind_of ho).mpr hr, hR⟩

/-- An outcome that is an error is the same in every sequence. -/
theorem bind {R' : Except String β → Prop} {p : ProgE Op Ret β} {f : β → ProgE Op Ret α}
    (hp : Gives h R' p s) (herr : ∀ e, R' (.error e) → R (.error e))
    (hok : ∀ a s', R' (.ok a) → Gives h R (f a) s') : Gives h R (p >>= f) s := by
  obtain ⟨e | a, t, hr, hR⟩ := hp
  · exact ⟨.error e, t, hr.bind_error.mpr ⟨rfl, rfl⟩, herr e hR⟩
  · obtain ⟨r, s', hr', hR'⟩ := hok a t hR
    exact ⟨r, s', hr.bind_ok.mpr hr', hR'⟩

end Gives

namespace Heeds

variable {R : Except String α → Prop} {s : σ}

theorem pure {a : α} : Heeds h E R (pure a) s := fun hf => False.elim hf

theorem throw {e : String} : Heeds h E R (throw e : ProgE Op Ret α) s := fun hf => False.elim hf

/-- A program that ends as it should in any case. -/
theorem of_gives {p : ProgE Op Ret α} (hp : Gives h R p s) : Heeds h E R p s := fun _ => hp

/-- An operation, and what follows a failure of it and its other answers. -/
theorem op_bind {o : Op} {f : Ret o → ProgE Op Ret α}
    (hfail : ∀ r s', h o s = some (r, s') → E o s r s' → Gives h R (f r) s')
    (hf : ∀ r s', h o s = some (r, s') → Heeds h E R (f r) s') : Heeds h E R (op o >>= f) s := by
  intro hfaces
  rcases faces_bind.mp hfaces with hop | ⟨a, s', hr, hfa⟩
  · obtain ⟨r, s', ho, hE⟩ := faces_op.mp hop
    exact Gives.op_bind ho (hfail r s' ho hE)
  · obtain ⟨r, ho, ha⟩ := runs_op.mp hr
    obtain rfl := Except.ok.inj ha
    exact Gives.op_bind ho (hf a s' ho hfa)

/-- An operation with one answer that is a failure. -/
theorem op_bind_bad {o : Op} (bad : Ret o) {f : Ret o → ProgE Op Ret α}
    (hE : ∀ s r s', E o s r s' → r = bad) (hbad : ∀ s', Gives h R (f bad) s')
    (hf : ∀ r s', h o s = some (r, s') → r ≠ bad → Heeds h E R (f r) s') :
    Heeds h E R (op o >>= f) s := by
  refine op_bind (fun r s' _ hr => hE s r s' hr ▸ hbad s') fun r s' ho => ?_
  by_cases hr : r = bad
  · exact of_gives (hr ▸ hbad s')
  · exact hf r s' ho hr

/-- A program in sequence with another, which learns of a failure from the
value. -/
theorem bind {R' : Except String β → Prop} {p : ProgE Op Ret β} {f : β → ProgE Op Ret α}
    (hp : Heeds h E R' p s) (herr : ∀ e, R' (.error e) → R (.error e))
    (hok : ∀ a s', R' (.ok a) → Gives h R (f a) s')
    (hf : ∀ a s', Runs h p s (.ok a) s' → Heeds h E R (f a) s') : Heeds h E R (p >>= f) s := by
  intro hfaces
  rcases faces_bind.mp hfaces with hp' | ⟨a, s', hr, hfa⟩
  · exact Gives.bind (hp hp') herr hok
  · obtain ⟨r, t, hr', hR⟩ := hf a s' hr hfa
    exact ⟨r, t, hr.bind_ok.mpr hr', hR⟩

/-- A program in sequence with another, when both give up with an error. -/
theorem seq {p : ProgE Op Ret β} {f : β → ProgE Op Ret α} (hp : Heeds h E IsError p s)
    (hf : ∀ a s', Heeds h E IsError (f a) s') : Heeds h E IsError (p >>= f) s :=
  bind hp (fun _ _ => trivial) (fun _ _ ha => False.elim ha) fun a s' _ => hf a s'

/-- A program whose error is kept as a value. -/
theorem attempt_bind {p : ProgE Op Ret β} {f : Except String β → ProgE Op Ret α}
    (hp : Heeds h E IsError p s) (herr : ∀ e s', Gives h R (f (.error e)) s')
    (hok : ∀ a s', Heeds h E R (f (.ok a)) s') : Heeds h E R (attempt p >>= f) s := by
  intro hfaces
  rcases faces_bind.mp hfaces with hp' | ⟨x, s', hx, hfx⟩
  · obtain ⟨e | a, t, hr, hR⟩ := hp (faces_attempt.mp hp')
    · obtain ⟨r, s', hr', hR'⟩ := herr e t
      exact ⟨r, s', runs_attempt_bind.mpr ⟨_, t, hr, hr'⟩, hR'⟩
    · exact False.elim hR
  · have hgives : Gives h R (f x) s' := by
      cases x with
      | error e => exact herr e s'
      | ok a => exact hok a s' hfx
    obtain ⟨y, hy, heq⟩ := runs_attempt.mp hx
    obtain rfl := Except.ok.inj heq
    obtain ⟨r, t, hr, hR⟩ := hgives
    exact ⟨r, t, runs_attempt_bind.mpr ⟨x, s', hy, hr⟩, hR⟩

/-- A program of a narrower interface. -/
theorem embed {Op' : Type} {Ret' : Op' → Type} {f : Op → Op'} {g : ∀ o, Ret' (f o) → Ret o}
    {h : Handler Op' Ret' σ} {E' : (op : Op') → σ → Ret' op → σ → Prop}
    (hE : ∀ o s r s', E' (f o) s r s' → E o s (g o r) s') {p : ProgE Op Ret α}
    (hp : Heeds (Prog.restrict f g h) E R p s) : Heeds h E' R (ProgE.embed f g p) s := by
  intro hfaces
  obtain ⟨r, s', hr, hR⟩ := hp (Prog.Faces.of_embed hE hfaces)
  exact ⟨r, s', runs_embed.mpr hr, hR⟩

/-- A loop, by its rounds. -/
theorem loop {body : β → ProgE Op Ret (β ⊕ α)} (hbody : ∀ b s, Heeds h E IsError (body b) s)
    {b : β} : Heeds h E IsError (loop body b) s := by
  rintro ⟨x, hx, hb⟩
  replace hb := hb.resolve_right fun ⟨_, _, _, hk⟩ => hk
  have hfaces : Faces h E (body x.1) x.2 := by
    rcases Prog.faces_bind.mp hb with hb | ⟨r, s', -, hr⟩
    · exact hb
    · rcases r with e | b' | c <;> exact False.elim hr
  obtain ⟨e | a, t, hr, hR⟩ := hbody x.1 x.2 hfaces
  · -- the rounds in front of the failure
    have hloop : Runs h (ProgE.loop body (b, s).1) (b, s).2 (.error e) t := by
      refine Relation.ReflTransGen.head_induction_on
        (motive := fun y _ => Runs h (ProgE.loop body y.1) y.2 (.error e) t) hx ?_ ?_
      · exact runs_loop.mpr (.inl ⟨e, hr, rfl⟩)
      · intro y z hyz _ hz
        exact (runs_of_round hyz).loop_next.mpr hz
    exact ⟨.error e, t, hloop, trivial⟩
  · exact False.elim hR

end Heeds

end ProgE

end Agecrypt
