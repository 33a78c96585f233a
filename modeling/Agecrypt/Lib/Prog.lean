import Mathlib.Logic.Basic
import Mathlib.Data.Option.Defs

/-!
# Programs over an interface of operations

A `Prog Op Ret α` is imperative code that reaches its environment only
through the operations `Op`; operation `op` answers with a `Ret op`.  The
code itself fixes no state.  A `Handler` gives every operation a meaning on
some state type, and `run` is the meaning of the whole program on that
state.  The same program can therefore be run against the buffers and
descriptors of a real system and against an idealised machine, and
`Agecrypt.Lib.Simulation` relates the two runs once for all programs.

A handler answers `none` when the operation has no defined outcome, such as
an access outside an array.  `run h n` gives `none` in that case, and also
when a `loop` of the program needs more than `n` iterations.  `run_mono`
says that a larger bound never changes an outcome.

`ProgE` adds the early return of an error text, the convention of C
functions that return a message or `NULL`.
-/

namespace Agecrypt

/-- Code over the operations `Op`.  `loop body init k` runs `body` from
`init` until it answers `Sum.inr`. -/
inductive Prog (Op : Type) (Ret : Op → Type) : Type → Type 1 where
  | pure {α : Type} (a : α) : Prog Op Ret α
  | call {α : Type} (op : Op) (k : Ret op → Prog Op Ret α) : Prog Op Ret α
  | loop {α β γ : Type} (body : β → Prog Op Ret (β ⊕ γ)) (init : β)
      (k : γ → Prog Op Ret α) : Prog Op Ret α

/-- The meaning of each operation on the states `σ`. -/
abbrev Handler (Op : Type) (Ret : Op → Type) (σ : Type) :=
  (op : Op) → σ → Option (Ret op × σ)

namespace Prog

variable {Op : Type} {Ret : Op → Type} {α β γ σ : Type}

/-- Sequencing. -/
protected def bind {α β : Type} :
    Prog Op Ret α → (α → Prog Op Ret β) → Prog Op Ret β
  | .pure a, f => f a
  | .call op k, f => .call op (fun r => (k r).bind f)
  | .loop body init k, f => .loop body init (fun c => (k c).bind f)

instance : Monad (Prog Op Ret) where
  pure := Prog.pure
  bind := Prog.bind

/-- At most `n` iterations of a loop whose body has the meaning `step`. -/
def iterate (step : β → σ → Option ((β ⊕ γ) × σ)) :
    Nat → β → σ → Option (γ × σ)
  | 0, _, _ => none
  | n + 1, b, s =>
    match step b s with
    | none => none
    | some (.inl b', s') => iterate step n b' s'
    | some (.inr c, s') => some (c, s')

/-- Run a program on the states of a handler, every loop at most `n`
times. -/
def run (h : Handler Op Ret σ) (n : Nat) {α : Type} :
    Prog Op Ret α → σ → Option (α × σ)
  | .pure a, s => some (a, s)
  | .call op k, s =>
    match h op s with
    | none => none
    | some (r, s') => run h n (k r) s'
  | .loop body init k, s =>
    match iterate (fun b s => run h n (body b) s) n init s with
    | none => none
    | some (c, s') => run h n (k c) s'

@[simp] theorem run_pure (h : Handler Op Ret σ) (n : Nat) (a : α) (s : σ) :
    run h n (pure a : Prog Op Ret α) s = some (a, s) :=
  rfl

@[simp] theorem run_bind (h : Handler Op Ret σ) (n : Nat)
    (p : Prog Op Ret α) (f : α → Prog Op Ret β) (s : σ) :
    run h n (p >>= f) s =
      (run h n p s).bind (fun x => run h n (f x.1) x.2) := by
  change run h n (p.bind f) s = _
  induction p generalizing s with
  | pure a => rfl
  | call op k ih =>
    simp only [Prog.bind, run]
    cases h op s with
    | none => rfl
    | some x => exact ih x.1 f x.2
  | loop body init k _ ih =>
    simp only [Prog.bind, run]
    cases iterate (fun b s => run h n (body b) s) n init s with
    | none => rfl
    | some x => exact ih x.1 f x.2

/-! ## The iteration bound -/

theorem iterate_mono {step step' : β → σ → Option ((β ⊕ γ) × σ)}
    (hstep : ∀ b s x, step b s = some x → step' b s = some x) :
    ∀ {n m : Nat}, n ≤ m → ∀ b s x,
      iterate step n b s = some x → iterate step' m b s = some x := by
  intro n
  induction n with
  | zero =>
    intro m _ b s x h
    simp [iterate] at h
  | succ n ih =>
    intro m hnm b s x h
    obtain ⟨m, rfl⟩ : ∃ m', m = m' + 1 := ⟨m - 1, by omega⟩
    rw [iterate] at h ⊢
    rcases hs : step b s with _ | ⟨b' | c, s'⟩
    · simp [hs] at h
    · rw [hs] at h
      rw [hstep b s _ hs]
      exact ih (by omega) b' s' x h
    · rw [hs] at h
      rw [hstep b s _ hs]
      exact h

/-- A larger bound keeps every outcome. -/
theorem run_mono (h : Handler Op Ret σ) {n m : Nat} (hnm : n ≤ m)
    (p : Prog Op Ret α) (s : σ) (x : α × σ) (hr : run h n p s = some x) :
    run h m p s = some x := by
  induction p generalizing s with
  | pure a => exact hr
  | call op k ih =>
    rw [run] at hr ⊢
    rcases ho : h op s with _ | ⟨r, s'⟩
    · simp [ho] at hr
    · rw [ho] at hr
      exact ih r s' x hr
  | loop body init k ihb ihk =>
    rw [run] at hr ⊢
    rcases hl : iterate (fun b s => run h n (body b) s) n init s with _ | ⟨c, s'⟩
    · simp [hl] at hr
    · rw [hl] at hr
      rw [iterate_mono (fun b s x hx => ihb b s x hx) hnm init s _ hl]
      exact ihk c s' x hr

/-! ## A program as code of a wider interface -/

/-- Rename the operations of a program. -/
def embed {Op' : Type} {Ret' : Op' → Type} (f : Op → Op')
    (g : ∀ op, Ret' (f op) → Ret op) {α : Type} :
    Prog Op Ret α → Prog Op' Ret' α
  | .pure a => .pure a
  | .call op k => .call (f op) (fun r => (k (g op r)).embed f g)
  | .loop body init k =>
    .loop (fun b => (body b).embed f g) init (fun c => (k c).embed f g)

/-- The meaning that a handler of the wider interface gives to the renamed
operations. -/
def restrict {Op' : Type} {Ret' : Op' → Type} (f : Op → Op')
    (g : ∀ op, Ret' (f op) → Ret op) (h : Handler Op' Ret' σ) :
    Handler Op Ret σ :=
  fun op s => (h (f op) s).map (fun x => (g op x.1, x.2))

theorem run_embed {Op' : Type} {Ret' : Op' → Type} (f : Op → Op')
    (g : ∀ op, Ret' (f op) → Ret op) (h : Handler Op' Ret' σ) (n : Nat)
    (p : Prog Op Ret α) (s : σ) :
    run h n (p.embed f g) s = run (restrict f g h) n p s := by
  induction p generalizing s with
  | pure a => rfl
  | call op k ih =>
    simp only [embed, run, restrict]
    rcases h (f op) s with _ | ⟨r, s'⟩
    · rfl
    · exact ih _ s'
  | loop body init k ihb ihk =>
    simp only [embed, run]
    have hbody : (fun b s => run h n ((body b).embed f g) s) =
        fun b s => run (restrict f g h) n (body b) s := by
      funext b s
      exact ihb b s
    rw [hbody]
    rcases iterate (fun b s => run (restrict f g h) n (body b) s) n init s with
      _ | ⟨c, s'⟩
    · rfl
    · exact ihk c s'

end Prog

/-! ## Programs that may return an error text -/

/-- Code that ends with a value or with an error text. -/
abbrev ProgE (Op : Type) (Ret : Op → Type) (α : Type) : Type 1 :=
  ExceptT String (Prog Op Ret) α

namespace ProgE

variable {Op : Type} {Ret : Op → Type} {α β γ σ : Type}

/-- One operation. -/
def op (o : Op) : ProgE Op Ret (Ret o) :=
  ExceptT.lift (Prog.call o Prog.pure)

/-- Run a function and keep its error as a value: `e = f(…)`. -/
def attempt (p : ProgE Op Ret α) : ProgE Op Ret (Except String α) :=
  ExceptT.lift (ExceptT.run p)

/-- A loop whose body may return an error. -/
def loop (body : β → ProgE Op Ret (β ⊕ γ)) (init : β) : ProgE Op Ret γ :=
  ExceptT.mk (Prog.loop
    (fun b => ExceptT.run (body b) >>= fun
      | .error e => pure (.inr (.error e))
      | .ok (.inl b') => pure (.inl b')
      | .ok (.inr c) => pure (.inr (.ok c)))
    init Prog.pure)

/-- The outcome of a program: a value or an error text, and the state. -/
def exec (h : Handler Op Ret σ) (n : Nat) (p : ProgE Op Ret α) (s : σ) :
    Option (Except String α × σ) :=
  Prog.run h n (ExceptT.run p) s

/-- What follows a program in sequence: an error ends the code. -/
def andThen (f : α → σ → Option (Except String β × σ)) :
    Option (Except String α × σ) → Option (Except String β × σ)
  | none => none
  | some (.error e, s) => some (.error e, s)
  | some (.ok a, s) => f a s

@[simp] theorem andThen_none (f : α → σ → Option (Except String β × σ)) :
    andThen f none = none := rfl

@[simp] theorem andThen_error (f : α → σ → Option (Except String β × σ))
    (e : String) (s : σ) :
    andThen f (some (.error e, s)) = some (.error e, s) := rfl

@[simp] theorem andThen_ok (f : α → σ → Option (Except String β × σ))
    (a : α) (s : σ) : andThen f (some (.ok a, s)) = f a s := rfl

@[simp] theorem exec_pure (h : Handler Op Ret σ) (n : Nat) (a : α) (s : σ) :
    exec h n (pure a : ProgE Op Ret α) s = some (.ok a, s) := rfl

@[simp] theorem exec_throw (h : Handler Op Ret σ) (n : Nat) (e : String)
    (s : σ) : exec h n (throw e : ProgE Op Ret α) s = some (.error e, s) := rfl

@[simp] theorem exec_op (h : Handler Op Ret σ) (n : Nat) (o : Op) (s : σ) :
    exec h n (op o) s = (h o s).map (fun x => (.ok x.1, x.2)) := by
  change Prog.run h n (Prog.call o Prog.pure >>= fun a => pure (Except.ok a)) s = _
  rw [Prog.run_bind]
  simp only [Prog.run]
  rcases h o s with _ | ⟨r, s'⟩ <;> rfl

@[simp] theorem exec_bind (h : Handler Op Ret σ) (n : Nat)
    (p : ProgE Op Ret α) (f : α → ProgE Op Ret β) (s : σ) :
    exec h n (p >>= f) s = andThen (fun a s => exec h n (f a) s) (exec h n p s) := by
  change Prog.run h n (ExceptT.run p >>= ExceptT.bindCont f) s = _
  rw [Prog.run_bind]
  simp only [exec]
  rcases Prog.run h n (ExceptT.run p) s with _ | ⟨_ | a, s'⟩ <;> rfl

@[simp] theorem exec_attempt (h : Handler Op Ret σ) (n : Nat)
    (p : ProgE Op Ret α) (s : σ) :
    exec h n (attempt p) s = (exec h n p s).map (fun x => (.ok x.1, x.2)) := by
  change Prog.run h n (ExceptT.run p >>= fun a => pure (Except.ok a)) s = _
  rw [Prog.run_bind]
  simp only [exec]
  rcases Prog.run h n (ExceptT.run p) s with _ | ⟨r, s'⟩ <;> rfl

/-- At most `m` iterations of the loop, the loops inside the body bounded
by `n`. -/
def loopExec (h : Handler Op Ret σ) (n : Nat)
    (body : β → ProgE Op Ret (β ⊕ γ)) :
    Nat → β → σ → Option (Except String γ × σ)
  | 0, _, _ => none
  | m + 1, b, s =>
    andThen (fun r s' =>
      match r with
      | .inl b' => loopExec h n body m b' s'
      | .inr c => some (.ok c, s')) (exec h n (body b) s)

theorem exec_loop (h : Handler Op Ret σ) (n : Nat)
    (body : β → ProgE Op Ret (β ⊕ γ)) (init : β) (s : σ) :
    exec h n (loop body init) s = loopExec h n body n init s := by
  have key : ∀ m b s, Prog.iterate
      (fun b s => Prog.run h n (ExceptT.run (body b) >>= fun
        | .error e => pure (.inr (.error e))
        | .ok (.inl b') => pure (.inl b')
        | .ok (.inr c) => pure (.inr (.ok c))) s) m b s =
      loopExec h n body m b s := by
    intro m
    induction m with
    | zero => intro b s; rfl
    | succ m ih =>
      intro b s
      rw [Prog.iterate, loopExec, exec, Prog.run_bind]
      rcases Prog.run h n (ExceptT.run (body b)) s with _ | ⟨_ | b' | c, s'⟩
      · rfl
      · rfl
      · exact ih b' s'
      · rfl
  change Prog.run h n (Prog.loop _ init Prog.pure) s = _
  rw [Prog.run, key]
  rcases loopExec h n body n init s with _ | ⟨r, s'⟩ <;> rfl

theorem exec_mono (h : Handler Op Ret σ) {n m : Nat} (hnm : n ≤ m)
    (p : ProgE Op Ret α) (s : σ) (x : Except String α × σ)
    (hr : exec h n p s = some x) : exec h m p s = some x :=
  Prog.run_mono h hnm _ s x hr

/-- A function of a narrower interface, called from a wider one. -/
def embed {Op' : Type} {Ret' : Op' → Type} (f : Op → Op')
    (g : ∀ o, Ret' (f o) → Ret o) (p : ProgE Op Ret α) : ProgE Op' Ret' α :=
  ExceptT.mk ((ExceptT.run p).embed f g)

theorem exec_embed {Op' : Type} {Ret' : Op' → Type} (f : Op → Op')
    (g : ∀ o, Ret' (f o) → Ret o) (h : Handler Op' Ret' σ) (n : Nat)
    (p : ProgE Op Ret α) (s : σ) :
    exec h n (embed f g p) s = exec (Prog.restrict f g h) n p s :=
  Prog.run_embed f g h n _ s

end ProgE

end Agecrypt
