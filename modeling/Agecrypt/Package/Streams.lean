import Agecrypt.Agec.Stable
import Agecrypt.Lib.Heeds
import Agecrypt.Package.Binding

/-!
# The streams of a call

Which slots of the stream table a raw entry point leaves in use.  A call
takes two slots and gives both back on every way out, with one exception:
`mem_finish` asks R for the token of the unwinding before it protects
anything, and when that allocation fails the two slots stay in use.
-/

namespace Agecrypt

open ProgE (Runs Preserves runs_pure runs_throw runs_op runs_op_bind runs_bind runs_attempt_bind
  runs_embed)

/-! ## The slots in use -/

def inUse (t : Memtab) (i : Fin MEMFD_MAX) : Bool := (t i).used

theorem vfdOf_ne (i : Fin MEMFD_MAX) : vfdOf i ≠ -1 := by
  rw [vfdOf]
  omega

theorem vfdToIndex_vfdOf {t : Memtab} {i : Fin MEMFD_MAX} (h : inUse t i = true) :
    vfdToIndex t (vfdOf i) = some i := by
  have hi : (-2 - vfdOf i).toNat = i.val := by
    rw [vfdOf]
    omega
  rw [vfdToIndex, if_neg (by rw [vfdOf]; omega)]
  simp only [hi, i.isLt, dif_pos]
  rw [if_neg]
  rintro (hneg | hfree)
  · rw [vfdOf] at hneg
    omega
  · exact hfree h

/-- A slot that is free is taken, or all are in use. -/
theorem memalloc_cases (t : Memtab) :
    (memalloc t = none ∧ ∀ i, inUse t i = true) ∨
      ∃ i, inUse t i = false ∧
        memalloc t = some (i, Function.update t i ⟨true, false, [], 0, 0⟩) := by
  cases hfind : (List.finRange MEMFD_MAX).find? fun i => ¬ (t i).used with
  | none =>
    refine .inl ⟨by rw [memalloc, hfind]; rfl, fun i => ?_⟩
    have := List.find?_eq_none.mp hfind i (List.mem_finRange i)
    simpa [inUse] using this
  | some i =>
    refine .inr ⟨i, ?_, by rw [memalloc, hfind]; rfl⟩
    have := List.find?_some hfind
    simpa [inUse] using this

/-- Opening a stream takes a slot that was free. -/
def Takes (x : Int × Memtab) (t : Memtab) : Prop :=
  (x = (-1, t) ∧ ∀ i, inUse t i = true) ∨
    ∃ i, inUse t i = false ∧ x.1 = vfdOf i ∧ inUse x.2 = Function.update (inUse t) i true

theorem inUse_update {t : Memtab} {i : Fin MEMFD_MAX} {f : MemFile} :
    inUse (Function.update t i f) = Function.update (inUse t) i f.used := by
  funext j
  by_cases h : j = i
  · subst h
    rw [inUse, Function.update_self, Function.update_self]
  · rw [inUse, Function.update_of_ne h, Function.update_of_ne h, inUse]

theorem memopenRead_takes (data : List UInt8) (t : Memtab) : Takes (memopenRead data t) t := by
  rw [memopenRead]
  rcases memalloc_cases t with ⟨hnone, hfull⟩ | ⟨i, hfree, hsome⟩
  · rw [hnone]
    exact .inl ⟨rfl, hfull⟩
  · rw [hsome]
    refine .inr ⟨i, hfree, rfl, ?_⟩
    rw [inUse_update, inUse_update, Function.update_idem, Function.update_self]

theorem memopenWrite_takes (t : Memtab) : Takes (memopenWrite t) t := by
  rw [memopenWrite]
  rcases memalloc_cases t with ⟨hnone, hfull⟩ | ⟨i, hfree, hsome⟩
  · rw [hnone]
    exact .inl ⟨rfl, hfull⟩
  · rw [hsome]
    refine .inr ⟨i, hfree, rfl, ?_⟩
    rw [inUse_update, inUse_update, Function.update_idem, Function.update_self]

/-- Closing a stream that is open frees its slot. -/
theorem inUse_memclose {t : Memtab} {i : Fin MEMFD_MAX} (h : inUse t i = true) :
    inUse (memclose (vfdOf i) t) = Function.update (inUse t) i false := by
  rw [memclose, vfdToIndex_vfdOf h]
  exact inUse_update

/-- An update that leaves the slot as it is in use. -/
theorem inUse_update_self {t : Memtab} {i : Fin MEMFD_MAX} {f : MemFile}
    (h : f.used = (t i).used) : inUse (Function.update t i f) = inUse t := by
  rw [inUse_update, h]
  exact Function.update_eq_self i (inUse t)

theorem inUse_memread (i : Fin MEMFD_MAX) (n : Nat) (t : Memtab) :
    inUse (memread i n t).2 = inUse t := by
  rw [memread]
  dsimp only
  split
  · rfl
  · exact inUse_update_self rfl

theorem inUse_memappend {i : Fin MEMFD_MAX} {bs : List UInt8} {cap : Nat} {t t' : Memtab}
    (h : memappend i bs cap t = some t') : inUse t' = inUse t := by
  obtain ⟨-, rfl⟩ := memappend_eq_some.mp h
  exact inUse_update_self rfl

/-! ## Calls that leave the slots alone -/

/-- The slots `u` are in use, and `c` are the outcomes of
`R_MakeUnwindCont`. -/
structure Occupied (u : Fin MEMFD_MAX → Bool) (c : Nat → Bool) (s : Sys) : Prop where
  slots : inUse s.memtab = u
  conts : s.conts = c

namespace Occupied

variable {u : Fin MEMFD_MAX → Bool} {c : Nat → Bool} {s : Sys} {α : Type}

theorem malloc (h : Occupied u c s) (n : Nat) : Occupied u c (s.malloc n).2 := by
  rw [Sys.malloc]
  split <;> exact ⟨h.slots, h.conts⟩

theorem syscall (h : Occupied u c s) {k : Syscall} {effect : Nat → Sys → Except Errno α × Sys}
    (he : ∀ count s, Occupied u c s → Occupied u c (effect count s).2) :
    Occupied u c (Sys.syscall k effect s).2 := by
  have harr : Occupied u c (s.arrive k) := ⟨h.slots, h.conts⟩
  have hact : Occupied u c (Sys.act effect (s.calls k 0) (s.arrive k)).2 := by
    cases s.calls k 0 with
    | fail e => exact harr
    | ok count => exact he count _ harr
  rw [Sys.syscall]
  rcases hx : Sys.act effect (s.calls k 0) (s.arrive k) with ⟨e | a, t⟩ <;> rw [hx] at hact <;>
    exact ⟨hact.slots, hact.conts⟩

theorem read (h : Occupied u c s) (fd : Int) (n : Nat) : Occupied u c (s.read fd n).2 := by
  refine h.syscall fun count s h => ?_
  split <;> exact ⟨h.slots, h.conts⟩

theorem write (h : Occupied u c s) (fd : Int) (bs : List UInt8) :
    Occupied u c (s.write fd bs).2 := by
  refine h.syscall fun count s h => ?_
  split <;> exact ⟨h.slots, h.conts⟩

theorem ageread (h : Occupied u c s) (fd : Int) (n : Nat) : Occupied u c (s.ageread fd n).2 := by
  rw [Sys.ageread]
  split
  · exact h.read fd n
  split
  · exact ⟨h.slots, h.conts⟩
  · exact ⟨(inUse_memread ..).trans h.slots, h.conts⟩

theorem memwrite (h : Occupied u c s) {i : Fin MEMFD_MAX} {bs : List UInt8} {r : Option Nat}
    {s' : Sys} (hw : Sys.MemWritten i bs s r s') : Occupied u c s' := by
  cases hw with
  | overflow _ => exact ⟨h.slots, h.conts⟩
  | @full ncap _ _ =>
    have hm := h.malloc ncap
    exact ⟨hm.slots, hm.conts⟩
  | fits _ hcopy => exact ⟨(inUse_memappend hcopy).trans h.slots, h.conts⟩
  | @grown ncap _ _ _ hcopy =>
    have hm := h.malloc ncap
    exact ⟨(inUse_memappend hcopy).trans hm.slots, hm.conts⟩

theorem agewrite (h : Occupied u c s) {fd : Int} {bs : List UInt8} {r : Option Nat} {s' : Sys}
    (hw : s.agewrite fd bs = some (r, s')) : Occupied u c s' := by
  cases Sys.agewrite_spec hw with
  | file _ => exact h.write fd bs
  | closed _ _ => exact ⟨h.slots, h.conts⟩
  | source _ _ _ => exact ⟨h.slots, h.conts⟩
  | sink _ _ _ hwritten => exact h.memwrite hwritten

/-- Whatever descriptors the codec works on, the slots stay as they are. -/
theorem stable (fi fo : Int) : Stable fi fo (Occupied u c) where
  ageread := fun {d n r d'} h _ he => by
    have hd : (Sys.ageread fi n d).2 = d' := congrArg Prod.snd he
    exact hd ▸ h.ageread fi n
  agewrite := fun h _ he => h.agewrite he
  alloc := fun {d n r d'} h he => by
    have hd : (Sys.malloc n d).2 = d' := congrArg Prod.snd he
    exact hd ▸ h.malloc n
  randombuf := fun {d n r d'} h he => by
    have hd : (Sys.randombuf n d).2 = d' := congrArg Prod.snd he
    exact hd ▸ ⟨h.slots, h.conts⟩

end Occupied

/-- The codec between two streams leaves the slots alone. -/
theorem age_holds {u : Fin MEMFD_MAX → Bool} {c : Nat → Bool} {α : Type} {p : Age α}
    {io io' : Io Sys} {r : Except String α} (h : Occupied u c io.dev)
    (hr : Runs pkgHandler (Pkg.age p) io r io') : Occupied u c io'.dev := by
  have hstays : Stays io.ib.fd io.ob.fd (Occupied u c) io := ⟨h, rfl, rfl⟩
  have hkeeps : Preserves pkgHandler (Stays io.ib.fd io.ob.fd (Occupied u c)) (Pkg.age p) :=
    Preserves.embed fun o s r s' hI hs => ageHandler_stable (Occupied.stable _ _) o hI r s' hs
  exact (hkeeps io r io' hstays hr).dev

/-! ## Calls that ask for no token -/

/-- R cannot make the token of the unwinding. -/
def PkgOp.NoToken : (o : PkgOp) → PkgRet o → Prop
  | .unwindcont, made => made = false
  | _, _ => False

/-- The program asks R for the token, and R cannot make it. -/
def LacksToken {α : Type} (p : Pkg α) (io : Io Sys) : Prop :=
  ProgE.Faces pkgHandler (fun o _ r _ => o.NoToken r) p io

section Token

variable {α β : Type} {io t : Io Sys}

theorem lacksToken_op_bind {o : PkgOp} {f : PkgRet o → Pkg α} {a : PkgRet o}
    (ho : pkgHandler o io = some (a, t)) (hno : ¬ o.NoToken a) :
    LacksToken (ProgE.op o >>= f) io ↔ LacksToken (f a) t := by
  rw [LacksToken, ProgE.faces_bind, ProgE.faces_op]
  constructor
  · rintro (⟨r, s, hr, hE⟩ | ⟨r, s, hr, hf⟩)
    · obtain ⟨rfl, rfl⟩ := Prod.mk.inj (Option.some.inj (ho.symm.trans hr))
      exact absurd hE hno
    · obtain ⟨x, hx, he⟩ := runs_op.mp hr
      obtain ⟨rfl, rfl⟩ := Prod.mk.inj (Option.some.inj (ho.symm.trans hx))
      obtain rfl := Except.ok.inj he
      exact hf
  · exact fun hf => .inr ⟨a, t, runs_op.mpr ⟨a, ho, rfl⟩, hf⟩

theorem lacksToken_bind {p : Pkg α} {f : α → Pkg β} {a : α} (hp : ¬ LacksToken p io)
    (hr : Runs pkgHandler p io (.ok a) t) : LacksToken (p >>= f) io ↔ LacksToken (f a) t := by
  rw [LacksToken, ProgE.faces_bind]
  constructor
  · rintro (h | ⟨b, s, hb, hf⟩)
    · exact absurd h hp
    · obtain ⟨hab, rfl⟩ := hr.unique hb
      obtain rfl := Except.ok.inj hab
      exact hf
  · exact fun hf => .inr ⟨a, t, hr, hf⟩

/-- The program asks for no token. -/
def Tokenless (p : Pkg α) : Prop := ∀ io, ¬ LacksToken p io

namespace Tokenless

theorem pure {a : α} : Tokenless (pure a) := fun _ h => h

theorem throw {e : String} : Tokenless (throw e : Pkg α) := fun _ h => h

theorem op {o : PkgOp} (hno : ∀ r, ¬ o.NoToken r) : Tokenless (ProgE.op o) := by
  intro io h
  obtain ⟨r, s, -, hE⟩ := ProgE.faces_op.mp h
  exact hno r hE

theorem bind {p : Pkg α} {f : α → Pkg β} (hp : Tokenless p) (hf : ∀ a, Tokenless (f a)) :
    Tokenless (p >>= f) := by
  intro io h
  rcases ProgE.faces_bind.mp h with h | ⟨a, s, -, h⟩
  · exact hp io h
  · exact hf a s h

theorem attempt {p : Pkg α} (hp : Tokenless p) : Tokenless (ProgE.attempt p) :=
  fun io h => hp io (ProgE.faces_attempt.mp h)

theorem age {p : Age α} : Tokenless (Pkg.age p) :=
  fun _ h => Prog.not_faces (Prog.Faces.of_embed (fun _ _ _ _ hE => hE) h)

end Tokenless

end Token

section Leaves

variable {u : Fin MEMFD_MAX → Bool} {c : Nat → Bool} {α β : Type}

/-- The program leaves the slots alone, and asks for no token. -/
structure Leaves (u : Fin MEMFD_MAX → Bool) (c : Nat → Bool) (p : Pkg α) : Prop where
  keeps : Preserves pkgHandler (fun io => Occupied u c io.dev) p
  tokenless : Tokenless p

namespace Leaves

theorem pure {a : α} : Leaves u c (pure a) := ⟨.pure, .pure⟩

theorem throw {e : String} : Leaves u c (throw e : Pkg α) := ⟨.throw, .throw⟩

theorem op {o : PkgOp}
    (ho : ∀ s r s', Occupied u c s.dev → pkgHandler o s = some (r, s') → Occupied u c s'.dev)
    (hno : ∀ r, ¬ o.NoToken r) : Leaves u c (ProgE.op o) := ⟨.op ho, .op hno⟩

theorem bind {p : Pkg α} {f : α → Pkg β} (hp : Leaves u c p) (hf : ∀ a, Leaves u c (f a)) :
    Leaves u c (p >>= f) :=
  ⟨.bind hp.keeps fun a => (hf a).keeps, .bind hp.tokenless fun a => (hf a).tokenless⟩

end Leaves

theorem ralloc_leaves : Leaves u c Pkg.ralloc := by
  refine .bind (.op (fun s r s' h hs => ?_) fun _ => id) fun a => ?_
  · rw [← (Prod.mk.inj (Option.some.inj hs)).2]
    exact ⟨h.slots, h.conts⟩
  · cases a
    · exact .throw
    · exact .pure

theorem resultOk_leaves (payload : Sexp) : Leaves u c (resultOk payload) :=
  .bind ralloc_leaves fun _ => .bind ralloc_leaves fun _ => .pure

theorem resultErr_leaves (cls msg : String) : Leaves u c (resultErr cls msg) :=
  .bind ralloc_leaves fun _ => .bind ralloc_leaves fun _ => .bind ralloc_leaves fun _ => .pure

theorem resultErr_tokenless (cls msg : String) : Tokenless (resultErr cls msg) :=
  (resultErr_leaves (u := fun _ => false) (c := fun _ => false) cls msg).tokenless

theorem memBody_leaves (vout : Int) : Leaves u c (memBody vout) := by
  refine .bind (.op (fun s r s' h hs => ?_) fun _ => id) fun _ =>
    .bind ralloc_leaves fun _ => resultOk_leaves _
  rw [← (Prod.mk.inj (Option.some.inj hs)).2]
  exact h

end Leaves

/-! ## The end of a call -/

/-- Two slots that were free are in use. -/
def Abandoned (u v : Fin MEMFD_MAX → Bool) : Prop :=
  ∃ i j, i ≠ j ∧ u i = false ∧ u j = false ∧
    v = Function.update (Function.update u i true) j true

theorem Abandoned.ne {u v : Fin MEMFD_MAX → Bool} (h : Abandoned u v) : v ≠ u := by
  obtain ⟨i, j, hne, hi, hj, rfl⟩ := h
  intro he
  have hused := congrFun he j
  rw [Function.update_self, hj] at hused
  cases hused

/-- The two streams of a call, over the slots `u` that others use. -/
structure TwoOpen (u : Fin MEMFD_MAX → Bool) (i j : Fin MEMFD_MAX) (t : Memtab) : Prop where
  ne : i ≠ j
  free_i : u i = false
  free_j : u j = false
  slots : inUse t = Function.update (Function.update u i true) j true

namespace TwoOpen

variable {u : Fin MEMFD_MAX → Bool} {i j : Fin MEMFD_MAX} {t : Memtab}

/-- Closing both gives the slots back. -/
theorem closed (h : TwoOpen u i j t) : inUse (memclose (vfdOf j) (memclose (vfdOf i) t)) = u := by
  have hi : inUse t i = true := by
    rw [h.slots, Function.update_of_ne h.ne, Function.update_self]
  have hclose : inUse (memclose (vfdOf i) t) = Function.update u j true := by
    rw [inUse_memclose hi, h.slots, Function.update_comm h.ne.symm, Function.update_idem,
      ← h.free_i, Function.update_eq_self]
  have hj : inUse (memclose (vfdOf i) t) j = true := by
    rw [hclose, Function.update_self]
  rw [inUse_memclose hj, hclose, Function.update_idem, ← h.free_j, Function.update_eq_self]

end TwoOpen

/-- `mem_clean` gives the two slots back. -/
theorem memClean_spec {u : Fin MEMFD_MAX → Bool} {i j : Fin MEMFD_MAX} {io io' : Io Sys}
    {r : Except String Unit} (h : TwoOpen u i j io.dev.memtab)
    (hr : Runs pkgHandler (memClean (vfdOf i) (vfdOf j)) io r io') :
    r = .ok () ∧ inUse io'.dev.memtab = u ∧ io'.dev.conts = io.dev.conts := by
  obtain ⟨a, io₁, hs₁, hr⟩ := runs_op_bind.mp hr
  obtain ⟨b, hs₂, hb⟩ := runs_op.mp hr
  obtain ⟨-, rfl⟩ := Prod.mk.inj (Option.some.inj hs₁)
  obtain ⟨-, rfl⟩ := Prod.mk.inj (Option.some.inj hs₂)
  exact ⟨hb, h.closed, rfl⟩

theorem memClean_tokenless (vin vout : Int) : Tokenless (memClean vin vout) :=
  .bind (.op fun _ => id) fun _ => .op fun _ => id

theorem memFail_tokenless (vin vout : Int) (cls e : String) : Tokenless (memFail vin vout cls e) :=
  .bind (memClean_tokenless vin vout) fun _ => resultErr_tokenless cls _

/-- The part of `mem_finish` that is protected. -/
theorem protected_tokenless (vin vout : Int) :
    Tokenless (Pkg.unwindProtect (memBody vout) (memClean vin vout)) := by
  refine .bind (.attempt
    (memBody_leaves (u := fun _ => false) (c := fun _ => false) vout).tokenless) fun x => ?_
  cases x with
  | error e => exact .bind (memClean_tokenless vin vout) fun _ => .throw
  | ok a => exact .bind (memClean_tokenless vin vout) fun _ => .pure

/-- `mem_fail`, on every way out. -/
theorem memFail_slots {u : Fin MEMFD_MAX → Bool} {i j : Fin MEMFD_MAX} {io io' : Io Sys}
    {r : Except String Result} {cls e : String} (h : TwoOpen u i j io.dev.memtab)
    (hr : Runs pkgHandler (memFail (vfdOf i) (vfdOf j) cls e) io r io') :
    inUse io'.dev.memtab = u := by
  rcases runs_bind.mp hr with ⟨e', hc, -⟩ | ⟨a, io₁, hc, hr⟩
  · exact (memClean_spec h hc).2.1
  · have h₁ : Occupied u io₁.dev.conts io₁.dev := ⟨(memClean_spec h hc).2.1, rfl⟩
    exact ((resultErr_leaves _ _).keeps io₁ r io' h₁ hr).slots

/-- `mem_finish`: the slots are lost exactly when R cannot make the token. -/
theorem memFinish_slots {u : Fin MEMFD_MAX → Bool} {i j : Fin MEMFD_MAX} {io io' : Io Sys}
    {r : Except String Result} (h : TwoOpen u i j io.dev.memtab)
    (hr : Runs pkgHandler (memFinish (vfdOf i) (vfdOf j)) io r io') :
    (¬ LacksToken (memFinish (vfdOf i) (vfdOf j)) io ∧ inUse io'.dev.memtab = u) ∨
      (LacksToken (memFinish (vfdOf i) (vfdOf j)) io ∧ io.dev.conts 0 = false ∧
        Abandoned u (inUse io'.dev.memtab)) := by
  rcases runs_bind.mp hr with ⟨e, hc, -⟩ | ⟨a, io₁, hc, hr⟩
  · obtain ⟨b, io₂, hs, hc⟩ := runs_op_bind.mp hc
    obtain ⟨hb, rfl⟩ := Prod.mk.inj (Option.some.inj hs)
    right
    cases hcont : io.dev.conts 0 with
    | true =>
      have hb' : b = true := hb.symm.trans hcont
      subst hb'
      cases (runs_pure.mp hc).1
    | false =>
      have hb' : b = false := hb.symm.trans hcont
      subst hb'
      obtain ⟨-, rfl⟩ := runs_throw.mp hc
      refine ⟨?_, rfl, i, j, h.ne, h.free_i, h.free_j, h.slots⟩
      exact ProgE.faces_bind.mpr (.inl (ProgE.faces_bind.mpr (.inl
        (ProgE.faces_op.mpr ⟨_, _, hs, rfl⟩))))
  · left
    obtain ⟨b, io₂, hs, hc⟩ := runs_op_bind.mp hc
    obtain ⟨-, rfl⟩ := Prod.mk.inj (Option.some.inj hs)
    obtain rfl : b = true := by
      cases b
      · cases (runs_throw.mp hc).1
      · rfl
    have h₁ : io₁.dev.memtab = io.dev.memtab := by rw [(runs_pure.mp hc).2]
    have htoken : ¬ LacksToken Pkg.makeUnwindCont io := by
      rw [Pkg.makeUnwindCont, lacksToken_op_bind hs Bool.true_eq_false.mp]
      exact Tokenless.pure _
    refine ⟨?_, ?_⟩
    · rw [memFinish, lacksToken_bind htoken (runs_op_bind.mpr ⟨_, _, hs, hc⟩)]
      exact protected_tokenless _ _ _
    obtain ⟨x, io₂, hbody, hr⟩ := runs_attempt_bind.mp hr
    have hheld : Occupied (inUse io₁.dev.memtab) io₁.dev.conts io₂.dev :=
      (memBody_leaves _).keeps io₁ x io₂ ⟨rfl, rfl⟩ hbody
    have hopen : TwoOpen u i j io₂.dev.memtab :=
      ⟨h.ne, h.free_i, h.free_j, hheld.slots.trans (h₁ ▸ h.slots)⟩
    cases x with
    | error e =>
      rcases runs_bind.mp hr with ⟨e', hc, -⟩ | ⟨_, io₃, hc, hr⟩
      · exact (memClean_spec hopen hc).2.1
      · rw [(runs_throw.mp hr).2]
        exact (memClean_spec hopen hc).2.1
    | ok a =>
      rcases runs_bind.mp hr with ⟨e', hc, -⟩ | ⟨_, io₃, hc, hr⟩
      · exact (memClean_spec hopen hc).2.1
      · rw [(runs_pure.mp hr).2]
        exact (memClean_spec hopen hc).2.1

/-! ## The middle of a call -/

/-- What a call leaves: the slots as they were, or two of them lost because
it asked for the token and R could not make it. -/
def Releases (p : Pkg Result) (io io' : Io Sys) : Prop :=
  (¬ LacksToken p io ∧ inUse io'.dev.memtab = inUse io.dev.memtab) ∨
    (LacksToken p io ∧ io.dev.conts 0 = false ∧
      Abandoned (inUse io.dev.memtab) (inUse io'.dev.memtab))

theorem Releases.of_leaves {p : Pkg Result} {io io' : Io Sys} {r : Except String Result}
    (hp : ∀ u c, Leaves u c p) (hr : Runs pkgHandler p io r io') : Releases p io io' :=
  .inl ⟨(hp (inUse io.dev.memtab) io.dev.conts).tokenless io,
    ((hp _ _).keeps io r io' ⟨rfl, rfl⟩ hr).slots⟩

/-- The slots as they were behind another step. -/
theorem Releases.after {p q : Pkg Result} {io io₁ io' : Io Sys}
    (h : Occupied (inUse io.dev.memtab) io.dev.conts io₁.dev)
    (hq : LacksToken p io ↔ LacksToken q io₁) (hr : Releases q io₁ io') : Releases p io io' := by
  rw [Releases, h.slots, h.conts, ← hq] at hr
  exact hr

theorem memTransform_releases {m : Memory} {din : List UInt8} {recording isarmor : Bool}
    {fn : Age Unit} {failClass : String} {io io' : Io Sys} {r : Except String Result}
    (hr : Runs pkgHandler (memTransform m din recording isarmor fn failClass) io r io') :
    Releases (memTransform m din recording isarmor fn failClass) io io' := by
  rw [Releases, memTransform, lacksToken_op_bind rfl id, lacksToken_op_bind rfl id]
  obtain ⟨vin, io₁, hs₁, hr⟩ := runs_op_bind.mp hr
  obtain ⟨hvin, rfl⟩ := Prod.mk.inj (Option.some.inj hs₁)
  obtain ⟨vout, io₂, hs₂, hr⟩ := runs_op_bind.mp hr
  obtain ⟨hvout, rfl⟩ := Prod.mk.inj (Option.some.inj hs₂)
  rw [hvin, hvout]
  change (memopenRead din io.dev.memtab).1 = vin at hvin
  change (memopenWrite (memopenRead din io.dev.memtab).2).1 = vout at hvout
  rcases memopenRead_takes din io.dev.memtab with ⟨hnone, hfull⟩ | ⟨i, hi, hfd, hslots⟩
  · -- all slots are in use, so neither stream is there
    rw [hnone] at hvin hvout
    rcases memopenWrite_takes io.dev.memtab with ⟨hnone', -⟩ | ⟨j, hj, -⟩
    · rw [hnone'] at hvout
      rw [← hvin, ← hvout] at hr ⊢
      have hkeep : (onTable memopenWrite (onTable (memopenRead din) io.dev).2).2 = io.dev := by
        simp only [onTable, hnone, hnone']
      have hheld := (resultErr_leaves _ _).keeps _ r io' ⟨rfl, rfl⟩ hr
      refine .inl ⟨resultErr_tokenless _ _ _, ?_⟩
      rw [hheld.slots]
      exact congrArg (fun s : Sys => inUse s.memtab) hkeep
    · rw [hfull j] at hj
      cases hj
  rw [hfd] at hvin
  rcases memopenWrite_takes (memopenRead din io.dev.memtab).2 with
    ⟨hnone', -⟩ | ⟨j, hj, hfd', hslots'⟩
  · -- the last slot went to the source
    rw [hnone'] at hvout
    rw [← hvin, ← hvout, if_pos (.inr rfl)] at hr ⊢
    dsimp only at hr ⊢
    rw [if_pos (vfdOf_ne i)] at hr ⊢
    obtain ⟨a, io₃, hs₃, hr⟩ := runs_op_bind.mp hr
    obtain ⟨-, rfl⟩ := Prod.mk.inj (Option.some.inj hs₃)
    have hheld := (resultErr_leaves _ _).keeps _ r io' ⟨rfl, rfl⟩ hr
    refine .inl ⟨Tokenless.bind (.op fun _ => id) (fun _ => resultErr_tokenless _ _) _, ?_⟩
    rw [hheld.slots]
    change inUse (memclose (vfdOf i) (memopenWrite (memopenRead din io.dev.memtab).2).2) = _
    have hopen : inUse (memopenRead din io.dev.memtab).2 i = true := by
      rw [hslots, Function.update_self]
    rw [hnone', inUse_memclose hopen, hslots, Function.update_idem, ← hi,
      Function.update_eq_self]
  · rw [hfd'] at hvout
    rw [hslots] at hj hslots'
    have hne : i ≠ j := by
      rintro rfl
      rw [Function.update_self] at hj
      cases hj
    rw [Function.update_of_ne hne.symm] at hj
    rw [← hvin, ← hvout, if_neg (not_or.mpr ⟨vfdOf_ne i, vfdOf_ne j⟩)] at hr ⊢
    rw [lacksToken_op_bind rfl id, lacksToken_op_bind rfl id]
    obtain ⟨_, io₃, hs₃, hr⟩ := runs_op_bind.mp hr
    obtain ⟨-, rfl⟩ := Prod.mk.inj (Option.some.inj hs₃)
    obtain ⟨_, io₄, hs₄, hr⟩ := runs_op_bind.mp hr
    obtain ⟨-, rfl⟩ := Prod.mk.inj (Option.some.inj hs₄)
    obtain ⟨x, io₅, hage, hr⟩ := runs_attempt_bind.mp hr
    rw [lacksToken_bind (Tokenless.attempt .age _) (ProgE.runs_attempt.mpr ⟨x, hage, rfl⟩)]
    have hheld : Occupied (Function.update (Function.update (inUse io.dev.memtab) i true) j true)
        io.dev.conts io₅.dev := by
      refine age_holds ?_ hage
      exact ⟨hslots', rfl⟩
    have hopen : TwoOpen (inUse io.dev.memtab) i j io₅.dev.memtab := ⟨hne, hi, hj, hheld.slots⟩
    cases x with
    | error e => exact .inl ⟨memFail_tokenless _ _ _ _ _, memFail_slots hopen hr⟩
    | ok a =>
      have hfin := memFinish_slots hopen hr
      rw [hheld.conts] at hfin
      exact hfin

/-! ## The raw entry points -/

/-- A call of a raw entry point, with what its local variables hold at the
start. -/
inductive MemCall where
  | encrypt (m : Memory) (data recipients armor : Sexp)
  | decrypt (m : Memory) (junk : Bytes 16) (data ext : Sexp)
  | encryptPassphrase (m : Memory) (data pass armor logn : Sexp)
  | decryptPassphrase (m : Memory) (junk : Bytes 16) (data pass : Sexp)

def MemCall.code (C : Crypto) (R : RApi) : MemCall → Pkg Result
  | .encrypt m data recipients armor => ageCEncrypt C R m data recipients armor
  | .decrypt m junk data ext => ageCDecrypt C m junk data ext
  | .encryptPassphrase m data pass armor logn => ageCEncryptPassphrase C R m data pass armor logn
  | .decryptPassphrase m junk data pass => ageCDecryptPassphrase C m junk data pass

/-- The steps of an entry point in front of its streams. -/
theorem Releases.bind {α : Type} {p : Pkg α} {f : α → Pkg Result} {io io' : Io Sys}
    {r : Except String Result} (hp : ∀ u c, Leaves u c p)
    (hf : ∀ a io₁, Runs pkgHandler (f a) io₁ r io' → Releases (f a) io₁ io')
    (hr : Runs pkgHandler (p >>= f) io r io') : Releases (p >>= f) io io' := by
  obtain ⟨hkeeps, htokenless⟩ := hp (inUse io.dev.memtab) io.dev.conts
  rcases runs_bind.mp hr with ⟨e, he, -⟩ | ⟨a, io₁, ha, hr⟩
  · refine .inl ⟨fun h => ?_, (hkeeps io _ io' ⟨rfl, rfl⟩ he).slots⟩
    rcases ProgE.faces_bind.mp h with h | ⟨a, s, ha, -⟩
    · exact htokenless io h
    · cases (he.unique ha).1
  · exact .after (hkeeps io _ io₁ ⟨rfl, rfl⟩ ha) (lacksToken_bind (htokenless io) ha) (hf a io₁ hr)

section Front

variable (u : Fin MEMFD_MAX → Bool) (c : Nat → Bool)

theorem eclear_leaves : Leaves u c (ProgE.op .eclear) := by
  refine .op (fun s r s' h hs => ?_) fun _ => id
  rw [← (Prod.mk.inj (Option.some.inj hs)).2]
  exact h

theorem RAW_leaves (x : Sexp) : Leaves u c (Pkg.RAW x) := by
  cases x with
  | raw bs => exact .pure
  | _ => exact .throw

theorem charElt_leaves (x : Sexp) (i : Nat) : Leaves u c (Pkg.charElt x i) := by
  cases x with
  | str els =>
    rw [Pkg.charElt]
    split
    · exact .bind (.op (fun s r s' h hs => by cases hs) fun _ => id) nofun
    · exact .pure
    · exact .pure
  | _ => exact .throw

theorem parseRecipients_leaves (x : Sexp) : Leaves u c (parseRecipients x) := by
  cases x with
  | str els =>
    rw [parseRecipients]
    split
    · exact .pure
    · refine .bind (.op (fun s r s' h hs => ?_) fun _ => id) fun b => ?_
      · rw [← (Prod.mk.inj (Option.some.inj hs)).2]
        exact h.malloc _
      · split
        · exact .pure
        · exact .pure
  | _ => exact .pure

theorem idAddr_leaves (x : Sexp) : Leaves u c (idAddr x) := by
  cases x with
  | extptr tag keys => exact .bind ralloc_leaves fun _ => .pure
  | _ => exact .pure

end Front

/-- One call, from any table and with any outcome. -/
theorem memCall_releases (C : Crypto) (R : RApi) (call : MemCall) {io io' : Io Sys}
    {r : Except String Result} (hr : Runs pkgHandler (call.code C R) io r io') :
    Releases (call.code C R) io io' := by
  cases call with
  | encrypt m data recipients armor =>
    refine Releases.bind eclear_leaves (fun _ io₁ hr => ?_) hr
    refine Releases.bind (RAW_leaves · · data) (fun din io₂ hr => ?_) hr
    refine Releases.bind (parseRecipients_leaves · · recipients) (fun recs io₃ hr => ?_) hr
    cases recs with
    | error e => exact .of_leaves (fun _ _ => resultErr_leaves _ _) hr
    | ok recs => exact memTransform_releases hr
  | decrypt m junk data ext =>
    refine Releases.bind eclear_leaves (fun _ io₁ hr => ?_) hr
    refine Releases.bind (RAW_leaves · · data) (fun din io₂ hr => ?_) hr
    refine Releases.bind (idAddr_leaves · · ext) (fun keys io₃ hr => ?_) hr
    cases keys with
    | none => exact .of_leaves (fun _ _ => resultErr_leaves _ _) hr
    | some keys => exact memTransform_releases hr
  | encryptPassphrase m data pass armor logn =>
    refine Releases.bind eclear_leaves (fun _ io₁ hr => ?_) hr
    refine Releases.bind (RAW_leaves · · data) (fun din io₂ hr => ?_) hr
    cases hcost : checkCost R logn with
    | none =>
      rw [hcost] at hr
      exact .of_leaves (fun _ _ => resultErr_leaves _ _) hr
    | some cost =>
      rw [hcost] at hr
      refine Releases.bind (charElt_leaves · · pass 0) (fun p io₃ hr => ?_) hr
      exact memTransform_releases hr
  | decryptPassphrase m junk data pass =>
    refine Releases.bind eclear_leaves (fun _ io₁ hr => ?_) hr
    refine Releases.bind (RAW_leaves · · data) (fun din io₂ hr => ?_) hr
    refine Releases.bind (charElt_leaves · · pass 0) (fun p io₃ hr => ?_) hr
    exact memTransform_releases hr

/-! ## Sessions -/

/-- The table as the process starts with it. -/
def Memtab.empty : Memtab := fun _ => ⟨false, false, [], 0, 0⟩

/-- The tables that are there between the calls of a session, in which every
call starts in a state with `Before`.  The rest of the state is whatever it
is at each call. -/
inductive Session (C : Crypto) (R : RApi) (Before : MemCall → Io Sys → Prop) : Memtab → Prop
  | start : Session C R Before Memtab.empty
  | call {c : MemCall} {io io' : Io Sys} {r : Except String Result} :
      Session C R Before io.dev.memtab → Before c io → Runs pkgHandler (c.code C R) io r io' →
      Session C R Before io'.dev.memtab

/-- R makes the token of the unwinding when the call asks for it. -/
def MakesToken (C : Crypto) (R : RApi) (c : MemCall) (io : Io Sys) : Prop :=
  ¬ LacksToken (c.code C R) io

theorem Session.empty {C : Crypto} {R : RApi} {t : Memtab} (h : Session C R (MakesToken C R) t) :
    inUse t = fun _ => false := by
  induction h with
  | start => rfl
  | call _ htoken hr ih =>
    rcases memCall_releases C R _ hr with ⟨-, hsame⟩ | ⟨hlacks, -⟩
    · rw [hsame, ih]
    · exact absurd hlacks htoken

/-- An empty table has room for the two streams of a call. -/
theorem opens_of_empty {t : Memtab} (h : inUse t = fun _ => false) (data : List UInt8) :
    (memopenRead data t).1 ≠ -1 ∧ (memopenWrite (memopenRead data t).2).1 ≠ -1 := by
  have hslot : ∀ n, n < MEMFD_MAX → ∃ i : Fin MEMFD_MAX, i.val = n := fun n hn => ⟨⟨n, hn⟩, rfl⟩
  obtain ⟨i₀, h₀⟩ := hslot 0 (by decide)
  obtain ⟨i₁, h₁⟩ := hslot 1 (by decide)
  rcases memopenRead_takes data t with ⟨-, hfull⟩ | ⟨i, -, hfd, hslots⟩
  · have hused := hfull i₀
    rw [h] at hused
    cases hused
  refine ⟨hfd ▸ vfdOf_ne i, ?_⟩
  rcases memopenWrite_takes (memopenRead data t).2 with ⟨-, hfull⟩ | ⟨j, -, hfd', -⟩
  · -- of the slots 0 and 1 one is not `i`
    have hother : ∀ k, k ≠ i → False := by
      intro k hk
      have hused := hfull k
      rw [hslots, h, Function.update_of_ne hk] at hused
      cases hused
    by_cases hi : i₀ = i
    · refine absurd (fun he => ?_) (hother i₁)
      have : i₁.val = i₀.val := congrArg Fin.val (he.trans hi.symm)
      omega
    · exact absurd hi (hother i₀)
  · exact hfd' ▸ vfdOf_ne j

/-- In a session in which R makes every token that it is asked for, the table
is empty between the calls, and the next call can open its streams.  A call
gives back the slots that it took, whatever way it ends, unless it asks for
the token and R cannot make it; then the two slots stay in use. -/
theorem calls_release_streams (C : Crypto) (R : RApi) {t : Memtab}
    (h : Session C R (MakesToken C R) t) :
    (∀ i, (t i).used = false) ∧
      (∀ data, (memopenRead data t).1 ≠ -1 ∧ (memopenWrite (memopenRead data t).2).1 ≠ -1) ∧
      ∀ (c : MemCall) (io io' : Io Sys) (r : Except String Result),
        Runs pkgHandler (c.code C R) io r io' →
        (MakesToken C R c io ↔ inUse io'.dev.memtab = inUse io.dev.memtab) ∧
        (¬ MakesToken C R c io →
          io.dev.conts 0 = false ∧ Abandoned (inUse io.dev.memtab) (inUse io'.dev.memtab)) := by
  refine ⟨congrFun h.empty, opens_of_empty h.empty, fun c io io' r hr => ?_⟩
  rcases memCall_releases C R c hr with ⟨htoken, hsame⟩ | ⟨hlacks, hcont, hlost⟩
  · exact ⟨iff_of_true htoken hsame, fun hnot => absurd htoken hnot⟩
  · exact ⟨iff_of_false (not_not.mpr hlacks) hlost.ne, fun _ => ⟨hcont, hlost⟩⟩

/-- A call that encrypts one byte under a passphrase. -/
def sampleCall : MemCall := .encryptPassphrase Memory.zero (.raw [1]) (.str [some [1]]) .null .null

/-- R converts everything to the cost 2. -/
def sampleR : RApi := ⟨fun _ => none, fun _ => some 2⟩

theorem calls_release_streams_sample :
    ∃ r io', Runs pkgHandler (sampleCall.code Crypto.sample sampleR) (Io.fresh []) r io' ∧
      ∀ i, (io'.dev.memtab i).used = false := by
  obtain ⟨-, -, hcalls⟩ := calls_release_streams Crypto.sample sampleR Session.start
  rcases hx : ProgE.exec pkgHandler 5000 (sampleCall.code Crypto.sample sampleR) (Io.fresh []) with
    _ | ⟨r, io'⟩
  · have hsome : (ProgE.exec pkgHandler 5000 (sampleCall.code Crypto.sample sampleR)
        (Io.fresh [])).isSome = true := by
      decide +kernel
    rw [hx] at hsome
    cases hsome
  have hr : Runs pkgHandler (sampleCall.code Crypto.sample sampleR) (Io.fresh []) r io' :=
    ⟨5000, hx⟩
  have htoken : MakesToken Crypto.sample sampleR sampleCall (Io.fresh []) := by
    by_contra hnot
    cases ((hcalls sampleCall _ io' r hr).2 hnot).1
  exact ⟨r, io', hr, (calls_release_streams Crypto.sample sampleR (.call .start htoken hr)).1⟩

/-- R cannot make the token, and two streams stay open. -/
theorem call_loses_streams :
    ¬ ∀ t, Session Crypto.sample sampleR (fun _ _ => True) t → ∀ i, (t i).used = false := by
  intro hall
  have hrun : ∃ io', Runs pkgHandler (sampleCall.code Crypto.sample sampleR)
        { Io.fresh [] with dev := { Sys.steady [] 99 with conts := fun _ => false } }
        (.error "cannot allocate memory") io' ∧
      ((List.finRange MEMFD_MAX).filter fun i => (io'.dev.memtab i).used).length = 2 :=
    ProgE.exists_runs_at 5000 (by decide +kernel)
  obtain ⟨io', hr, hused⟩ := hrun
  have hfree := hall io'.dev.memtab (.call .start trivial hr)
  simp [hfree] at hused

end Agecrypt
