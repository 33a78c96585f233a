import Agecrypt.Lib.Runs

/-!
# A program as a program of another interface

`interp f p` is `p` with every operation `o` replaced by the program `f o`.
Functions that a program computes by itself can so be made operations of a
wider interface, where a run can be asked for its calls of them: the wider
program is one that `interp` takes back to the given one.

`runs_interp` says that the outcomes are those of `p` under the meaning that
`f` gives to its operations.
-/

namespace Agecrypt

namespace Prog

variable {Op Op' : Type} {Ret : Op → Type} {Ret' : Op' → Type} {α β γ σ : Type}

/-- Replace every operation by a program. -/
def interp (f : (o : Op') → Prog Op Ret (Ret' o)) {α : Type} : Prog Op' Ret' α → Prog Op Ret α
  | .pure a => .pure a
  | .call o k => (f o).bind fun r => (k r).interp f
  | .loop body init k => .loop (fun b => (body b).interp f) init fun c => (k c).interp f

theorem bind_assoc (p : Prog Op Ret α) (g : α → Prog Op Ret β) (k : β → Prog Op Ret γ) :
    (p.bind g).bind k = p.bind fun a => (g a).bind k := by
  induction p with
  | pure a => rfl
  | call o k' ih => simp only [Prog.bind, ih]
  | loop body init k' _ ih => simp only [Prog.bind, ih]

theorem bind_pure (p : Prog Op Ret α) : p.bind Prog.pure = p := by
  induction p with
  | pure a => rfl
  | call o k ih => simp only [Prog.bind, ih]
  | loop body init k _ ih => simp only [Prog.bind, ih]

variable {f : (o : Op') → Prog Op Ret (Ret' o)}

theorem interp_bind (p : Prog Op' Ret' α) (g : α → Prog Op' Ret' β) :
    (p.bind g).interp f = (p.interp f).bind fun a => (g a).interp f := by
  induction p with
  | pure a => rfl
  | call o k ih => simp only [Prog.bind, interp, ih, bind_assoc]
  | loop body init k _ ih => simp only [Prog.bind, interp, ih]

end Prog

namespace ProgE

variable {Op Op' : Type} {Ret : Op → Type} {Ret' : Op' → Type} {α β γ σ : Type}

/-- Replace every operation by a program. -/
def interp (f : (o : Op') → Prog Op Ret (Ret' o)) (p : ProgE Op' Ret' α) : ProgE Op Ret α :=
  ExceptT.mk ((ExceptT.run p).interp f)

variable {f : (o : Op') → Prog Op Ret (Ret' o)}

@[simp] theorem interp_pure (a : α) : interp f (pure a : ProgE Op' Ret' α) = pure a := rfl

@[simp] theorem interp_throw (e : String) :
    interp f (throw e : ProgE Op' Ret' α) = throw e := rfl

/-- An operation that the program computes by itself. -/
theorem interp_op_pure {o : Op'} {a : Ret' o} (ho : f o = .pure a) :
    interp f (op o) = pure a := by
  change Prog.bind (f o) _ = _
  rw [ho]
  rfl

@[simp] theorem pure_then (a : α) (g : α → ProgE Op Ret β) : (pure a >>= g) = g a := rfl

@[simp] theorem interp_bind (p : ProgE Op' Ret' α) (g : α → ProgE Op' Ret' β) :
    interp f (p >>= g) = interp f p >>= fun a => interp f (g a) := by
  change Prog.interp f (Prog.bind (ExceptT.run p) (ExceptT.bindCont g)) = _
  rw [Prog.interp_bind]
  change _ = Prog.bind _ _
  refine congrArg (Prog.bind _) (funext fun a => ?_)
  cases a with
  | error e => rfl
  | ok a => rfl

theorem interp_loop (body : β → ProgE Op' Ret' (β ⊕ γ)) (init : β) :
    interp f (loop body init) = loop (fun b => interp f (body b)) init := by
  change Prog.loop _ init Prog.pure = Prog.loop _ init Prog.pure
  refine congrArg (fun b => Prog.loop b init Prog.pure) (funext fun b => ?_)
  change Prog.interp f (Prog.bind _ _) = Prog.bind _ _
  rw [Prog.interp_bind]
  refine congrArg (Prog.bind _) (funext fun x => ?_)
  rcases x with e | b' | c <;> rfl

/-- A program of the given interface is taken back to itself. -/
theorem interp_embed {i : Op → Op'} {j : ∀ o, Ret' (i o) → Ret o}
    (hf : ∀ (α : Type) (o : Op) (k : Ret o → Prog Op Ret α),
      (f (i o)).bind (fun r => k (j o r)) = .call o k)
    (p : ProgE Op Ret α) : interp f (embed i j p) = p := by
  have key : ∀ {α : Type} (p : Prog Op Ret α), (p.embed i j).interp f = p := by
    intro α p
    induction p with
    | pure a => rfl
    | call o k ih =>
      simp only [Prog.embed, Prog.interp, ih]
      exact hf _ o k
    | loop body init k ihb ihk => simp only [Prog.embed, Prog.interp, ihb, ihk]
  exact key (ExceptT.run p)

end ProgE

end Agecrypt
