import Agecrypt.Agec.Reports
import Agecrypt.Lib.Runs
import Agecrypt.Package.Binding
import Agecrypt.Package.Interference
import Agecrypt.Package.Working

/-!
# The streaming of a file operation

`run_file_transform` opens its two files, hands them to the transform and
closes them.  Up to the clean-up no call takes a descriptor away, the counts
of what was refused only grow, and the schedules of `close` and `unlink` are
those of the start.
-/

namespace Agecrypt

open ProgE (Runs runs_pure runs_throw runs_op_bind runs_bind)
open Pkg (age)

/-! ## One call -/

/-- What the calls in front of the clean-up leave of a system. -/
structure Since (s t : Sys) : Prop where
  failed : s.failed ≤ t.failed
  denied : s.denied ≤ t.denied
  rallocs : t.rallocs = s.rallocs
  opened : ∀ fd, (s.fds fd).isSome → (t.fds fd).isSome
  nextfd : s.nextfd ≤ t.nextfd
  close : t.calls .close = s.calls .close
  unlink : t.calls .unlink = s.calls .unlink

namespace Since

variable {s t u : Sys}

theorem refl (s : Sys) : Since s s :=
  ⟨Nat.le_refl _, Nat.le_refl _, rfl, fun _ h => h, Nat.le_refl _, rfl, rfl⟩

theorem trans (h : Since s t) (h' : Since t u) : Since s u where
  failed := Nat.le_trans h.failed h'.failed
  denied := Nat.le_trans h.denied h'.denied
  rallocs := h'.rallocs.trans h.rallocs
  opened := fun fd hfd => h'.opened fd (h.opened fd hfd)
  nextfd := Nat.le_trans h.nextfd h'.nextfd
  close := h'.close.trans h.close
  unlink := h'.unlink.trans h.unlink

/-- A descriptor that is open after this. -/
theorem open_fd (s : Sys) (fd : Int) (f : OpenFile) {n : Nat} (hn : s.nextfd ≤ n) (disk : Disk) :
    Since s { s with fds := Function.update s.fds fd (some f), nextfd := n, disk } := by
  refine ⟨Nat.le_refl _, Nat.le_refl _, rfl, fun fd' hfd => ?_, hn, rfl, rfl⟩
  by_cases he : fd' = fd
  · rw [he]
    simp only [Function.update_self, Option.isSome_some]
  · simpa only [Function.update_of_ne he] using hfd

theorem refuse (s : Sys) : Since s { s with failed := s.failed + 1 } :=
  ⟨Nat.le_succ _, Nat.le_refl _, rfl, fun _ h => h, Nat.le_refl _, rfl, rfl⟩

theorem arrive {c : Syscall} (hclose : c ≠ .close) (hunlink : c ≠ .unlink) (s : Sys) :
    Since s (s.arrive c) :=
  ⟨Nat.le_refl _, Nat.le_refl _, rfl, fun _ h => h, Nat.le_refl _,
    Function.update_of_ne hclose.symm _ _, Function.update_of_ne hunlink.symm _ _⟩

end Since

namespace Sys

variable {α : Type}

/-- A call of the file system that is not part of the clean-up. -/
theorem since_syscall {c : Syscall} (hclose : c ≠ .close) (hunlink : c ≠ .unlink)
    {effect : Nat → Sys → Except Errno α × Sys} (he : ∀ count s, Since s (effect count s).2)
    (s : Sys) : Since s (syscall c effect s).2 := by
  have harrive := Since.arrive hclose hunlink s
  have hact : Since s (act effect (s.calls c 0) (s.arrive c)).2 := by
    cases s.calls c 0 with
    | fail e => exact harrive
    | ok count => exact harrive.trans (he count _)
  rw [syscall]
  rcases hx : act effect (s.calls c 0) (s.arrive c) with ⟨e | a, t⟩ <;> rw [hx] at hact
  · exact ⟨Nat.le_succ_of_le hact.failed, hact.denied, hact.rallocs, hact.opened, hact.nextfd,
      hact.close, hact.unlink⟩
  · exact ⟨hact.failed, hact.denied, hact.rallocs, hact.opened, hact.nextfd, hact.close,
      hact.unlink⟩

/-- A call is counted when it fails. -/
theorem failed_syscall (c : Syscall) {effect : Nat → Sys → Except Errno α × Sys}
    (he : ∀ count s, (effect count s).2.failed = s.failed) (s : Sys) :
    (syscall c effect s).2.failed =
      if (syscall c effect s).1 = none then s.failed + 1 else s.failed := by
  have hact : (act effect (s.calls c 0) (s.arrive c)).2.failed = s.failed := by
    cases s.calls c 0 with
    | fail e => rfl
    | ok count => exact he count _
  rw [syscall]
  rcases hx : act effect (s.calls c 0) (s.arrive c) with ⟨e | a, t⟩ <;> rw [hx] at hact
  · exact congrArg (· + 1) hact
  · exact hact

theorem since_malloc (n : Nat) (s : Sys) : Since s (s.malloc n).2 := by
  rw [malloc]
  split
  · exact ⟨Nat.le_refl _, Nat.le_refl _, rfl, fun _ h => h, Nat.le_refl _, rfl, rfl⟩
  · exact ⟨Nat.le_refl _, Nat.le_succ _, rfl, fun _ h => h, Nat.le_refl _, rfl, rfl⟩

theorem failed_malloc (n : Nat) (s : Sys) : (s.malloc n).2.failed = s.failed := by
  rw [malloc]
  split <;> rfl

theorem since_randombuf (n : Nat) (s : Sys) : Since s (s.randombuf n).2 := by
  refine ⟨Nat.le_refl _, ?_, rfl, fun _ h => h, Nat.le_refl _, rfl, rfl⟩
  show s.denied ≤ if (s.draws 0).isSome then s.denied else s.denied + 1
  split
  · exact Nat.le_refl _
  · exact Nat.le_succ _

theorem since_read (fd : Int) (n : Nat) (s : Sys) : Since s (s.read fd n).2 := by
  refine since_syscall (by decide) (by decide) (fun count s => ?_) s
  dsimp only
  split
  · exact .refl _
  · exact .open_fd _ _ _ (Nat.le_refl _) _

theorem failed_read {fd : Int} {n : Nat} {s : Sys} (h : (s.read fd n).1 ≠ none) :
    (s.read fd n).2.failed = s.failed := by
  have hcount : (s.read fd n).2.failed =
      if (s.read fd n).1 = none then s.failed + 1 else s.failed := by
    refine failed_syscall .read (fun count s => ?_) s
    split <;> rfl
  rw [hcount, if_neg h]

theorem since_write (fd : Int) (bs : List UInt8) (s : Sys) : Since s (s.write fd bs).2 := by
  refine since_syscall (by decide) (by decide) (fun count s => ?_) s
  dsimp only
  split
  · exact .refl _
  · exact .open_fd _ _ _ (Nat.le_refl _) _

theorem failed_write {fd : Int} {bs : List UInt8} {s : Sys} (h : (s.write fd bs).1 ≠ none) :
    (s.write fd bs).2.failed = s.failed := by
  have hcount : (s.write fd bs).2.failed =
      if (s.write fd bs).1 = none then s.failed + 1 else s.failed := by
    refine failed_syscall .write (fun count s => ?_) s
    split <;> rfl
  rw [hcount, if_neg h]

theorem since_openRead (p : Path) (s : Sys) : Since s (s.openRead p).2 := by
  refine since_syscall (by decide) (by decide) (fun count s => ?_) s
  dsimp only
  split
  · exact .refl _
  · exact .open_fd _ _ _ (Nat.le_succ _) _

theorem since_openExcl (p : Path) (s : Sys) : Since s (s.openExcl p).2 := by
  refine since_syscall (by decide) (by decide) (fun count s => ?_) s
  dsimp only
  split
  · exact .refl _
  · exact .open_fd _ _ _ (Nat.le_succ _) _

/-- A call that answers has had the effect of it. -/
theorem syscall_eq_some {c : Syscall} {effect : Nat → Sys → Except Errno α × Sys} {s : Sys} {a : α}
    (h : (syscall c effect s).1 = some a) :
    ∃ count t, effect count (s.arrive c) = (.ok a, t) ∧
      (syscall c effect s).2 = t.record (s.arrive c).disk := by
  rw [syscall] at h ⊢
  cases hv : s.calls c 0 with
  | fail e =>
    rw [hv] at h
    cases h
  | ok count =>
    rw [hv] at h
    rw [act] at h ⊢
    rcases hx : effect count (s.arrive c) with ⟨e | x, t⟩ <;> rw [hx] at h
    · cases h
    · obtain rfl := Option.some.inj h
      exact ⟨count, t, hx, rfl⟩

/-- A descriptor that a call has opened. -/
structure Opens (s : Sys) (fd : Int) (t : Sys) : Prop where
  new : fd = s.nextfd
  opened : (t.fds fd).isSome
  nextfd : t.nextfd = s.nextfd + 1

theorem Opens.ne {s t : Sys} {fd fd' : Int} (h : Opens s fd t) (hle : (t.nextfd : Int) ≤ fd') :
    fd ≠ fd' := by
  have hnew := h.new
  have hnext := h.nextfd
  omega

theorem opens_openRead {p : Path} {s : Sys} {fd : Int} (h : (s.openRead p).1 = some fd) :
    Opens s fd (s.openRead p).2 := by
  obtain ⟨count, t, he, ht⟩ := syscall_eq_some (c := .open) h
  split at he
  · cases (Prod.mk.inj he).1
  · obtain ⟨hfd, rfl⟩ := Prod.mk.inj he
    obtain rfl := Except.ok.inj hfd
    rw [openRead, ht]
    exact ⟨rfl, by simp [record, arrive], rfl⟩

theorem opens_openExcl {p : Path} {s : Sys} {fd : Int} (h : (s.openExcl p).1 = some fd) :
    Opens s fd (s.openExcl p).2 := by
  obtain ⟨count, t, he, ht⟩ := syscall_eq_some (c := .open) h
  split at he
  · cases (Prod.mk.inj he).1
  · obtain ⟨hfd, rfl⟩ := Prod.mk.inj he
    obtain rfl := Except.ok.inj hfd
    rw [openExcl, ht]
    exact ⟨rfl, by simp [record, arrive], rfl⟩

/-! ## The calls of the codec -/

theorem since_ageread (fd : Int) (n : Nat) (s : Sys) : Since s (s.ageread fd n).2 := by
  rw [ageread]
  split
  · exact since_read fd n s
  split
  · exact .refuse s
  · exact ⟨Nat.le_refl _, Nat.le_refl _, rfl, fun _ h => h, Nat.le_refl _, rfl, rfl⟩

theorem failed_ageread {fd : Int} {n : Nat} {s : Sys} (h : (s.ageread fd n).1 ≠ none) :
    (s.ageread fd n).2.failed = s.failed := by
  rw [ageread] at h ⊢
  split at h <;> rename_i hfd
  · rw [if_pos hfd]
    exact failed_read h
  rw [if_neg hfd]
  cases hi : vfdToIndex s.memtab fd with
  | none =>
    rw [hi] at h
    exact absurd rfl h
  | some i => rfl

theorem since_agewrite {fd : Int} {bs : List UInt8} {s s' : Sys} {r : Option Nat}
    (h : s.agewrite fd bs = some (r, s')) : Since s s' := by
  cases agewrite_spec h with
  | file _ => exact since_write fd bs s
  | closed _ _ => exact .refuse s
  | source _ _ _ => exact .refuse s
  | sink _ _ _ hwritten =>
    cases hwritten with
    | overflow _ => exact .refuse s
    | @full ncap _ _ => exact (since_malloc ncap s).trans (.refuse _)
    | fits _ _ => exact ⟨Nat.le_refl _, Nat.le_refl _, rfl, fun _ h => h, Nat.le_refl _, rfl, rfl⟩
    | @grown ncap _ _ _ _ =>
      have hsince := since_malloc ncap s
      exact ⟨hsince.failed, hsince.denied, hsince.rallocs, hsince.opened, hsince.nextfd,
        hsince.close, hsince.unlink⟩

theorem failed_agewrite {fd : Int} {bs : List UInt8} {s s' : Sys} {k : Nat}
    (h : s.agewrite fd bs = some (some k, s')) : s'.failed = s.failed := by
  generalize hr : some k = r at h
  cases agewrite_spec h with
  | file _ => exact failed_write (hr ▸ Option.some_ne_none k)
  | closed _ _ => cases hr
  | source _ _ _ => cases hr
  | sink _ _ _ hwritten =>
    cases hwritten with
    | overflow _ => cases hr
    | full _ _ => cases hr
    | fits _ _ => rfl
    | @grown ncap _ _ _ _ => exact failed_malloc ncap s

end Sys

theorem since_stable (fi fo : Int) (s₀ : Sys) : Stable fi fo (Since s₀) where
  ageread := fun {d n r d'} h _ he => by
    have hd : (Sys.ageread fi n d).2 = d' := congrArg Prod.snd he
    exact hd ▸ h.trans (Sys.since_ageread fi n d)
  agewrite := fun h _ he => h.trans (Sys.since_agewrite he)
  alloc := fun {d n r d'} h he => by
    have hd : (Sys.malloc n d).2 = d' := congrArg Prod.snd he
    exact hd ▸ h.trans (Sys.since_malloc n d)
  randombuf := fun {d n r d'} h he => by
    have hd : (Sys.randombuf n d).2 = d' := congrArg Prod.snd he
    exact hd ▸ h.trans (Sys.since_randombuf n d)

/-- A read or a write that answers has not failed. -/
theorem unfailing_failed (fi fo : Int) (n : Nat) : Unfailing fi fo fun s : Sys => s.failed = n where
  ageread := fun {d k bs d'} h he => by
    obtain ⟨hr, rfl⟩ := Prod.mk.inj (show Sys.ageread fi k d = (some bs, d') from he)
    exact (Sys.failed_ageread (hr ▸ Option.some_ne_none bs)).trans h
  agewrite := fun h he => (Sys.failed_agewrite he).trans h
  alloc := fun {d k r d'} h he => by
    have hd : (Sys.malloc k d).2 = d' := congrArg Prod.snd he
    exact hd ▸ (Sys.failed_malloc k d).trans h
  randombuf := fun {d k r d'} h he => by
    have hd : (Sys.randombuf k d).2 = d' := congrArg Prod.snd he
    exact hd ▸ h

theorem age_since {o : AgeOp} {io io' : Io Sys} {r : AgeRet o}
    (h : ageHandler o io = some (r, io')) : Since io.dev io'.dev :=
  (ageHandler_stable (since_stable io.ib.fd io.ob.fd io.dev) o ⟨.refl _, rfl, rfl⟩ r io' h).dev

/-- A run of the codec. -/
theorem runs_age {α : Type} {p : Age α} {io io' : Io Sys} {r : Except String α} :
    Runs pkgHandler (age p) io r io' ↔ Runs ageHandler p io r io' := by
  have hrestrict : @Prog.restrict _ AgeRet (Io Sys) _ _ PkgOp.age (fun _ r => r) pkgHandler =
      ageHandler := by
    funext o io
    exact Option.map_id'
  rw [age, ProgE.runs_embed, hrestrict]

section

variable {α : Type} {p : Age α} {io io' : Io Sys} {r : Except String α}

theorem runs_age_since (hr : Runs ageHandler p io r io') : Since io.dev io'.dev :=
  Runs.invariant (h := ageHandler) (I := fun s => Since io.dev s.dev)
    (fun _ _ _ _ hs ho => hs.trans (age_since ho)) hr (.refl _)

/-- A count that only grows has moved at the end if an operation moved it. -/
theorem interrupted_iff {count : Sys → Nat} (hmono : ∀ {s t}, Since s t → count s ≤ count t)
    (hr : Runs ageHandler p io r io') :
    Interrupted count p io ↔ count io'.dev ≠ count io.dev := by
  constructor
  · intro h
    have hmoved : ProgE.Faces ageHandler
        (fun _ _ _ s => count io.dev < count s.dev) p io := by
      refine ProgE.Faces.imp (h := ageHandler) (Q := fun s => count io.dev ≤ count s.dev)
        (fun _ _ _ _ hle ho => hle.trans (hmono (age_since ho))) (fun o s x s' hle ho hne => ?_)
        (Nat.le_refl _) h
      have := hmono (age_since ho)
      omega
    refine Nat.ne_of_gt (ProgE.Faces.result (h := ageHandler)
      (Q := fun s => count io.dev < count s.dev) ?_ (fun _ _ _ _ _ hlt => hlt) hmoved hr)
    exact fun _ _ _ _ hlt ho => hlt.trans_le (hmono (age_since ho))
  · intro hne
    by_contra hnot
    refine hne (hr.of_not_faces (Q := fun s => count s.dev = count io.dev) ?_ hnot rfl)
    intro o s x s' heq ho hsame
    exact (not_not.mp hsame).trans heq

/-- A program that gives up at a failure ends with an error when a read or a
write fails. -/
theorem Interrupted.errs {fi fo : Int} (hp : Placed fi fo io)
    (hheeds : AgeHeeds ProgE.IsError p io) (h : Interrupted Sys.failed p io) :
    ∃ e io', Runs ageHandler p io (.error e) io' := by
  obtain ⟨e | a, io', hr, herr⟩ := hheeds (h.refused (unfailing_failed fi fo) hp)
  · exact ⟨e, io', hr⟩
  · exact False.elim herr

end

/-! ## The two files -/

theorem openTempLoop_opens {outp : Path} (tries : Nat) : ∀ {io io' : Io Sys}
    {x : Option (Int × Path)}, Runs pkgHandler (openTempLoop outp tries) io (.ok x) io' →
      Since io.dev io'.dev ∧ ∀ tmpfd tmppath, x = some (tmpfd, tmppath) →
        (io.dev.nextfd : Int) ≤ tmpfd ∧ (io'.dev.fds tmpfd).isSome := by
  induction tries with
  | zero =>
    intro io io' x hr
    obtain ⟨hx, rfl⟩ := runs_pure.mp hr
    obtain rfl := Except.ok.inj hx
    exact ⟨.refl _, fun _ _ he => by cases he⟩
  | succ tries ih =>
    intro io io' x hr
    obtain ⟨draw, s₁, hdraw, hr⟩ := runs_op_bind.mp hr
    obtain ⟨-, rfl⟩ := Prod.mk.inj (Option.some.inj hdraw)
    have h₁ := Sys.since_randombuf 8 io.dev
    cases draw with
    | none =>
      obtain ⟨_, s₂, hs₂, hr⟩ := runs_op_bind.mp hr
      obtain ⟨-, rfl⟩ := Prod.mk.inj (Option.some.inj hs₂)
      obtain ⟨hx, rfl⟩ := runs_pure.mp hr
      obtain rfl := Except.ok.inj hx
      exact ⟨⟨h₁.failed, h₁.denied, h₁.rallocs, h₁.opened, h₁.nextfd, h₁.close, h₁.unlink⟩,
        fun _ _ he => by cases he⟩
    | some draw =>
      obtain ⟨fd, s₂, hopen, hr⟩ := runs_op_bind.mp hr
      obtain ⟨hfd, rfl⟩ := Prod.mk.inj (Option.some.inj hopen)
      have h₂ := h₁.trans (Sys.since_openExcl (tempName outp draw) (io.dev.randombuf 8).2)
      cases fd with
      | some fd =>
        obtain ⟨hx, rfl⟩ := runs_pure.mp hr
        obtain rfl := Except.ok.inj hx
        refine ⟨h₂, fun tmpfd tmppath he => ?_⟩
        obtain ⟨rfl, -⟩ := Prod.mk.inj (Option.some.inj he)
        have hopens := Sys.opens_openExcl hfd
        exact ⟨Int.le_of_eq hopens.new.symm, hopens.opened⟩
      | none =>
        obtain ⟨e, s₃, hs₃, hr⟩ := runs_op_bind.mp hr
        obtain ⟨-, rfl⟩ := Prod.mk.inj (Option.some.inj hs₃)
        split at hr
        · obtain ⟨hx, rfl⟩ := runs_pure.mp hr
          obtain rfl := Except.ok.inj hx
          exact ⟨h₂, fun _ _ he => by cases he⟩
        · obtain ⟨h₃, hsome⟩ := ih hr
          refine ⟨h₂.trans h₃, fun tmpfd tmppath he => ?_⟩
          obtain ⟨hle, hopened⟩ := hsome tmpfd tmppath he
          exact ⟨(Int.ofNat_le.mpr h₂.nextfd).trans hle, hopened⟩

section

variable (m : Memory) (inp outp : Path) (isarmor recording : Bool)

/-- A call in `io` has opened its two files and stands in front of the
transform in `t`. -/
structure Streaming (io : Io Sys) (infd tmpfd : Int) (tmppath : Path) (t : Io Sys) : Prop where
  opened : ∃ s₁ s₂ s₃ : Io Sys, pkgHandler (.malloc (outp.length + 24)) io = some (true, s₁) ∧
    pkgHandler (.openRead inp) s₁ = some (some infd, s₂) ∧
    Runs pkgHandler (ageOpenTemp outp (outp.length + 24)) s₂ (.ok (some (tmpfd, tmppath))) s₃ ∧
    ∃ s₄, pkgHandler (.ibinit m infd recording) s₃ = some ((), s₄) ∧
      pkgHandler (.obinit m tmpfd isarmor) s₄ = some ((), t)

end

/-- The two files are open, and the buffers are set. -/
structure Started (io : Io Sys) (infd tmpfd : Int) (t : Io Sys) : Prop where
  placed : Placed infd tmpfd t
  since : Since io.dev t.dev
  apart : infd ≠ tmpfd
  infile : 0 ≤ infd
  outfile : 0 ≤ tmpfd
  input : (t.dev.fds infd).isSome
  output : (t.dev.fds tmpfd).isSome

namespace Streaming

variable {m : Memory} {inp outp : Path} {isarmor recording : Bool} {io t t' : Io Sys}
  {infd tmpfd infd' tmpfd' : Int} {tmppath tmppath' : Path}

theorem started (h : Streaming m inp outp isarmor recording io infd tmpfd tmppath t) :
    Started io infd tmpfd t := by
  obtain ⟨s₁, s₂, s₃, hmalloc, hopen, htemp, s₄, hib, hob⟩ := h.opened
  obtain ⟨-, rfl⟩ := Prod.mk.inj (Option.some.inj hmalloc)
  obtain ⟨hinfd, rfl⟩ := Prod.mk.inj (Option.some.inj hopen)
  obtain ⟨-, rfl⟩ := Prod.mk.inj (Option.some.inj hib)
  obtain ⟨-, rfl⟩ := Prod.mk.inj (Option.some.inj hob)
  have hinput := Sys.opens_openRead hinfd
  rw [ageOpenTemp, if_neg (by rw [TMPSUFFIX]; omega)] at htemp
  obtain ⟨hsince, hsome⟩ := openTempLoop_opens 16 htemp
  obtain ⟨hle, houtput⟩ := hsome tmpfd tmppath rfl
  have hzero : 0 ≤ infd := hinput.new ▸ Int.natCast_nonneg _
  refine ⟨⟨rfl, rfl, Nat.zero_le _⟩, ?_, ?_, hzero, (Int.natCast_nonneg _).trans hle,
    hsince.opened infd hinput.opened, houtput⟩
  · exact ((Sys.since_malloc _ io.dev).trans (Sys.since_openRead inp _)).trans hsince
  · exact hinput.ne hle

/-- A call comes to one state in front of its transform. -/
theorem unique (h : Streaming m inp outp isarmor recording io infd tmpfd tmppath t)
    (h' : Streaming m inp outp isarmor recording io infd' tmpfd' tmppath' t') : t = t' := by
  obtain ⟨s₁, s₂, s₃, hmalloc, hopen, htemp, s₄, hib, hob⟩ := h.opened
  obtain ⟨u₁, u₂, u₃, hmalloc', hopen', htemp', u₄, hib', hob'⟩ := h'.opened
  obtain rfl := (Prod.mk.inj (Option.some.inj (hmalloc.symm.trans hmalloc'))).2
  obtain ⟨hinfd, rfl⟩ := Prod.mk.inj (Option.some.inj (hopen.symm.trans hopen'))
  obtain ⟨htmp, rfl⟩ := htemp.unique htemp'
  obtain ⟨rfl, rfl⟩ := Prod.mk.inj (Option.some.inj (Except.ok.inj htmp))
  obtain rfl := Option.some.inj hinfd
  obtain rfl := (Prod.mk.inj (Option.some.inj (hib.symm.trans hib'))).2
  exact (Prod.mk.inj (Option.some.inj (hob.symm.trans hob'))).2

end Streaming

/-! ## A schedule that refuses nothing -/

/-- The files are open and no read and no write is to fail. -/
structure Unhindered (infd tmpfd : Int) (n : Nat) (s : Sys) : Prop where
  reads : s.Lets .read
  writes : s.Lets .write
  input : (s.fds infd).isSome
  output : (s.fds tmpfd).isSome
  failed : s.failed = n

namespace Unhindered

variable {infd tmpfd : Int} {n : Nat} {s : Sys}

theorem read (h : Unhindered infd tmpfd n s) (k : Nat) :
    Unhindered infd tmpfd n (s.read infd k).2 := by
  have hlater := (Sys.called_read infd k s).1.later
  have hsince := Sys.since_read infd k s
  obtain ⟨count, hv⟩ := h.reads.verdict
  have hfd : (s.arrive .read).fds infd = s.fds infd := rfl
  obtain ⟨f, hf⟩ := Option.isSome_iff_exists.mp h.input
  have hsome : (s.read infd k).1 ≠ none := by
    rw [Sys.read, Sys.syscall, hv, Sys.act, hfd, hf]
    exact Option.some_ne_none _
  exact ⟨hlater.lets h.reads, hlater.lets h.writes, hsince.opened infd h.input,
    hsince.opened tmpfd h.output, (Sys.failed_read hsome).trans h.failed⟩

theorem write (h : Unhindered infd tmpfd n s) (bs : List UInt8) :
    Unhindered infd tmpfd n (s.write tmpfd bs).2 := by
  have hlater : s.Later (s.write tmpfd bs).2 := by
    rcases Sys.write_cases tmpfd bs s with ⟨-, hc, -⟩ | ⟨_, _, _, -, -, -, hc, -⟩ <;> exact hc.later
  have hsince := Sys.since_write tmpfd bs s
  obtain ⟨count, hv⟩ := h.writes.verdict
  have hfd : (s.arrive .write).fds tmpfd = s.fds tmpfd := rfl
  obtain ⟨f, hf⟩ := Option.isSome_iff_exists.mp h.output
  have hsome : (s.write tmpfd bs).1 ≠ none := by
    rw [Sys.write, Sys.syscall, hv, Sys.act, hfd, hf]
    exact Option.some_ne_none _
  exact ⟨hlater.lets h.reads, hlater.lets h.writes, hsince.opened infd h.input,
    hsince.opened tmpfd h.output, (Sys.failed_write hsome).trans h.failed⟩

theorem malloc (h : Unhindered infd tmpfd n s) (k : Nat) :
    Unhindered infd tmpfd n (s.malloc k).2 := by
  rw [Sys.malloc]
  split <;> exact ⟨h.reads, h.writes, h.input, h.output, h.failed⟩

theorem stable (hin : 0 ≤ infd) (hout : 0 ≤ tmpfd) :
    Stable infd tmpfd (Unhindered infd tmpfd n) where
  ageread := fun {d k r d'} h _ he => by
    have hd : (Sys.ageread infd k d).2 = d' := congrArg Prod.snd he
    rw [Sys.ageread, if_pos hin] at hd
    exact hd ▸ h.read k
  agewrite := fun {d bs r d'} h _ he => by
    rw [show Descr.agewrite tmpfd bs d = some (d.write tmpfd bs) from if_pos hout] at he
    have hd : (d.write tmpfd bs).2 = d' := congrArg Prod.snd (Option.some.inj he)
    exact hd ▸ h.write bs
  alloc := fun {d k r d'} h he => by
    have hd : (Sys.malloc k d).2 = d' := congrArg Prod.snd he
    exact hd ▸ h.malloc k
  randombuf := fun {d k r d'} h he => by
    have hd : (Sys.randombuf k d).2 = d' := congrArg Prod.snd he
    exact hd ▸ ⟨h.reads, h.writes, h.input, h.output, h.failed⟩

end Unhindered

/-- A read or a write of the streaming fails only where the schedule says
so. -/
theorem Started.not_interrupted {io t : Io Sys} {infd tmpfd : Int} {α : Type} {p : Age α}
    (ht : Started io infd tmpfd t) (hreads : t.dev.Lets .read) (hwrites : t.dev.Lets .write) :
    ¬ Interrupted Sys.failed p t := by
  have hstart : Stays infd tmpfd (Unhindered infd tmpfd t.dev.failed) t :=
    ⟨⟨hreads, hwrites, ht.input, ht.output, rfl⟩, ht.placed.ib, ht.placed.ob⟩
  have hstep : ∀ o (s : Io Sys) r s', Stays infd tmpfd (Unhindered infd tmpfd t.dev.failed) s →
      ageHandler o s = some (r, s') → Stays infd tmpfd (Unhindered infd tmpfd t.dev.failed) s' :=
    fun o s r s' hs ho => ageHandler_stable (Unhindered.stable ht.infile ht.outfile) o hs r s' ho
  intro h
  refine Prog.not_faces
    (Prog.Faces.imp (h := ageHandler) hstep (fun o s r s' hs ho hne => ?_) hstart h)
  exact hne ((hstep o s r s' hs ho).dev.failed.trans hs.dev.failed.symm)

end Agecrypt
