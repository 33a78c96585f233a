import Agecrypt.Package.Classes
import Agecrypt.Package.Interference

/-!
# Output files are put in place whole

A run that writes a file writes it under a name of its own and moves it onto
the destination when it is complete.  `Progress` says what the calls of a run
do to the destination: nothing, until one call puts the output there.  The
phases of a run are `NoTemp`, `HasTemp` from the exclusive `open` on, and
`Concluded`; each call of the run keeps its phase or leads to the next one.
Other processes may do anything to the destination meanwhile.
-/

namespace Agecrypt

open ProgE (Runs Meets runs_op)
open Sys (Called SameFiles)

/-! ## The calls of a run, as the destination sees them -/

/-- The file systems that the calls of a run found and left, and the output
that one of them has put in place.  No call changes anything else but under
the names `mine`, and in a `safe` run that call found no destination. -/
inductive Progress (outp : Path) (mine : Path → Prop) (safe : Prop) :
    Option (List UInt8) → List (Disk × Disk) → Prop
  | start : Progress outp mine safe none []
  | quiet {c : Option (List UInt8)} {steps : List (Disk × Disk)} {found left : Disk} :
      Progress outp mine safe c steps →
      (∀ p, ¬ mine p → left.contents p = found.contents p) →
      Progress outp mine safe c (steps ++ [(found, left)])
  | place {steps : List (Disk × Disk)} {found left : Disk} {out : List UInt8} :
      Progress outp mine safe none steps → left.contents outp = some out →
      (∀ p, p ≠ outp → ¬ mine p → left.contents p = found.contents p) →
      (safe → found.dir outp = none) → Progress outp mine safe (some out) (steps ++ [(found, left)])

section

variable (s₀ : Sys) (outp : Path) (mine : Path → Prop) (safe : Prop)

/-- A moment of a run that began in `s₀` and has put `c` in place. -/
structure Track (c : Option (List UInt8)) (s : Sys) : Prop where
  later : s₀.Later s
  sane : s.disk.Sane
  progress : ∃ steps, s.log = s₀.log ++ steps ∧ Progress outp mine safe c steps
  /-- What the destination holds when nobody else works on it. -/
  holds : s₀.Alone → s.disk.contents outp = c.elim (s₀.disk.contents outp) some
  elsewhere : s₀.Alone → ∀ p, p ≠ outp → ¬ mine p → s.disk.contents p = s₀.disk.contents p

/-- There is no temporary file. -/
structure NoTemp (s : Sys) : Prop extends Track s₀ outp mine safe none s where
  names : ∀ p, mine p → s.disk.dir p = s₀.disk.dir p

/-- The temporary file has not been removed. -/
structure Unfinished (tmp : Path) (c : Option (List UInt8)) (s : Sys) : Prop
    extends Track s₀ outp mine safe c s where
  ours : mine tmp
  absent : s₀.disk.dir tmp = none
  rest : ∀ p, mine p → p ≠ tmp → s.disk.dir p = s₀.disk.dir p

/-- The temporary file is there, under its own name only. -/
structure HasTemp (tmp : Path) (f : Nat) (s : Sys) : Prop
    extends Unfinished s₀ outp mine safe tmp none s where
  sole : s.disk.Sole tmp f

/-- The run has removed its temporary file, as far as it could. -/
structure Concluded (c : Option (List UInt8)) (s : Sys) : Prop
    extends Track s₀ outp mine safe c s where
  names : s₀.Lets .unlink → ∀ p, mine p → s.disk.dir p = s₀.disk.dir p

end

variable {s₀ : Sys} {outp : Path} {mine : Path → Prop} {safe : Prop}

/-- What a run relies on: the other processes leave its names alone, and the
destination has none of them. -/
structure Reliance (s₀ : Sys) (outp : Path) (mine : Path → Prop) : Prop where
  spares : ∀ i, Spares mine (s₀.others i)
  apart : ∀ p, mine p → p ≠ outp

theorem Reliance.found (h : Reliance s₀ outp mine) {s : Sys} (hl : s₀.Later s) :
    Spares mine (s.others 0) := by
  obtain ⟨j, hj⟩ := hl.others 0
  rw [hj]
  exact h.spares j

variable {s t : Sys} {c : Option (List UInt8)} {left : Disk} {out : List UInt8}

namespace Track

theorem alone_found (h : Track s₀ outp mine safe c s) (ha : s₀.Alone) : s.found = s.disk :=
  h.later.alone ha 0 s.disk

/-- A call that does not change what the destination holds. -/
theorem quiet (h : Track s₀ outp mine safe c s) (hout : ¬ mine outp) (hc : Called s t left)
    (hsane : left.Sane) (hq : ∀ p, ¬ mine p → left.contents p = s.found.contents p) :
    Track s₀ outp mine safe c t := by
  obtain ⟨steps, hlog, hp⟩ := h.progress
  refine ⟨h.later.trans hc.later, hc.disk ▸ hsane, ⟨_, ?_, hp.quiet hq⟩, fun ha => ?_,
    fun ha p hne hm => ?_⟩
  · rw [hc.log, hlog, List.append_assoc]
  · rw [hc.disk, hq outp hout, h.alone_found ha]
    exact h.holds ha
  · rw [hc.disk, hq p hm, h.alone_found ha]
    exact h.elsewhere ha p hne hm

/-- The call that puts the output in place. -/
theorem place (h : Track s₀ outp mine safe none s) (hc : Called s t left) (hsane : left.Sane)
    (hd : left.contents outp = some out)
    (hq : ∀ p, p ≠ outp → ¬ mine p → left.contents p = s.found.contents p)
    (hsafe : safe → s.found.dir outp = none) : Track s₀ outp mine safe (some out) t := by
  obtain ⟨steps, hlog, hp⟩ := h.progress
  refine ⟨h.later.trans hc.later, hc.disk ▸ hsane, ⟨_, ?_, hp.place hd hq hsafe⟩, fun _ => ?_,
    fun ha p hne hm => ?_⟩
  · rw [hc.log, hlog, List.append_assoc]
  · rw [hc.disk]
    exact hd
  · rw [hc.disk, hq p hne hm, h.alone_found ha]
    exact h.elsewhere ha p hne hm

/-- A call of anything but the file system. -/
theorem same (h : Track s₀ outp mine safe c s) (hl : s.Later t) (hd : t.disk = s.disk)
    (hlog : t.log = s.log) : Track s₀ outp mine safe c t := by
  refine ⟨h.later.trans hl, hd ▸ h.sane, ?_, fun ha => ?_, fun ha => ?_⟩
  · rw [hlog]
    exact h.progress
  · rw [hd]
    exact h.holds ha
  · rw [hd]
    exact h.elsewhere ha

end Track

section Phases

variable (henv : Reliance s₀ outp mine) {tmp : Path} {f : Nat}

include henv

theorem Reliance.not_mine : ¬ mine outp := fun h => henv.apart outp h rfl

theorem Track.found_sane (h : Track s₀ outp mine safe c s) : s.found.Sane :=
  (henv.found h.later).sane s.disk h.sane

theorem NoTemp.idle (h : NoTemp s₀ outp mine safe s) (hc : Called s t s.found) :
    NoTemp s₀ outp mine safe t := by
  refine ⟨h.quiet henv.not_mine hc (h.found_sane henv) fun _ _ => rfl, fun p hp => ?_⟩
  rw [hc.disk]
  exact ((henv.found h.later).dir s.disk p hp).trans (h.names p hp)

/-- The exclusive `open` makes the temporary file. -/
theorem NoTemp.create (h : NoTemp s₀ outp mine safe s) (hours : mine tmp)
    (hfree : s.found.dir tmp = none) (hc : Called s t (s.found.create tmp)) :
    HasTemp s₀ outp mine safe tmp s.found.next t := by
  have hsane := h.found_sane henv
  have hspares := henv.found h.later
  refine ⟨⟨h.quiet henv.not_mine hc hsane.create fun p hm => ?_, hours, ?_, fun p hp hne => ?_⟩,
    hc.disk ▸ .create hsane⟩
  · exact Disk.contents_create hsane fun he => hm (he ▸ hours)
  · rw [← h.names tmp hours, ← hspares.dir s.disk tmp hours]
    exact hfree
  · rw [hc.disk, Disk.dir_create_of_ne hne]
    exact (hspares.dir s.disk p hp).trans (h.names p hp)

theorem Unfinished.idle (h : Unfinished s₀ outp mine safe tmp c s) (hc : Called s t s.found) :
    Unfinished s₀ outp mine safe tmp c t := by
  refine ⟨h.quiet henv.not_mine hc (h.found_sane henv) fun _ _ => rfl, h.ours, h.absent,
    fun p hp hne => ?_⟩
  rw [hc.disk]
  exact ((henv.found h.later).dir s.disk p hp).trans (h.rest p hp hne)

/-- The name is removed, or left behind. -/
theorem Unfinished.unlink (h : Unfinished s₀ outp mine safe tmp c s) :
    Concluded s₀ outp mine safe c (s.unlink tmp).2 := by
  have hsane := h.found_sane henv
  have hfound : ∀ p, mine p → p ≠ tmp → s.found.dir p = s₀.disk.dir p := fun p hp hne =>
    ((henv.found h.later).dir s.disk p hp).trans (h.rest p hp hne)
  rcases Sys.unlink_cases tmp s with ⟨hc, hgone⟩ | hc
  · refine ⟨h.quiet henv.not_mine hc hsane fun _ _ => rfl, fun hlets p hp => ?_⟩
    rw [hc.disk]
    by_cases hpt : p = tmp
    · rw [hpt, hgone (h.later.lets hlets), h.absent]
    · exact hfound p hp hpt
  · have hkeep : ∀ p, ¬ mine p → (s.found.remove tmp).contents p = s.found.contents p :=
      fun p hm => Disk.contents_remove fun he => hm (he ▸ h.ours)
    refine ⟨h.quiet henv.not_mine hc hsane.remove hkeep, fun _ p hp => ?_⟩
    rw [hc.disk]
    by_cases hpt : p = tmp
    · rw [hpt, Disk.dir_remove_self, h.absent]
    · rw [Disk.dir_remove_of_ne hpt]
      exact hfound p hp hpt

theorem HasTemp.found_sole (h : HasTemp s₀ outp mine safe tmp f s) : s.found.Sole tmp f :=
  (henv.found h.later).sole h.sane h.ours h.sole

theorem HasTemp.found_data (h : HasTemp s₀ outp mine safe tmp f s) :
    s.found.data f = s.disk.data f :=
  (henv.found h.later).data s.disk tmp f h.sane h.ours h.sole.named

theorem HasTemp.idle (h : HasTemp s₀ outp mine safe tmp f s) (hc : Called s t s.found) :
    HasTemp s₀ outp mine safe tmp f t ∧ t.disk.data f = s.disk.data f := by
  refine ⟨⟨h.toUnfinished.idle henv hc, ?_⟩, ?_⟩
  · rw [hc.disk]
    exact h.found_sole henv
  · rw [hc.disk]
    exact h.found_data henv

/-- A write into the temporary file. -/
theorem HasTemp.put {pos : Nat} {bs : List UInt8} (h : HasTemp s₀ outp mine safe tmp f s)
    (hc : Called s t (s.found.put f pos bs)) : HasTemp s₀ outp mine safe tmp f t := by
  have hsole := h.found_sole henv
  refine ⟨⟨h.quiet henv.not_mine hc (h.found_sane henv) fun p hm => ?_, h.ours, h.absent,
    fun p hp hne => ?_⟩, ?_⟩
  · refine Disk.contents_put (hsole.ne ?_)
    rintro rfl
    exact hm h.ours
  · rw [hc.disk]
    exact ((henv.found h.later).dir s.disk p hp).trans (h.rest p hp hne)
  · rw [hc.disk]
    exact ⟨hsole.named, hsole.only⟩

/-- `link` puts the file in place, under a second name. -/
theorem HasTemp.link (h : HasTemp s₀ outp mine safe tmp f s) (hfree : s.found.dir outp = none)
    (hc : Called s t (s.found.enter outp f)) :
    Unfinished s₀ outp mine safe tmp (some (s.disk.data f)) t := by
  have hsane := h.found_sane henv
  have hf := hsane tmp f (h.found_sole henv).named
  refine ⟨h.place hc (hsane.enter hf) ?_ (fun p hne _ => Disk.contents_enter hne) fun _ => hfree,
    h.ours, h.absent, fun p hp hne => ?_⟩
  · rw [Disk.contents_enter_self, h.found_data henv]
  · rw [hc.disk, Disk.dir_enter_of_ne (henv.apart p hp)]
    exact ((henv.found h.later).dir s.disk p hp).trans (h.rest p hp hne)

/-- `rename` puts the file in place, and its own name is gone. -/
theorem HasTemp.rename (h : HasTemp s₀ outp mine safe tmp f s)
    (hsafe : safe → s.found.dir outp = none)
    (hc : Called s t ((s.found.enter outp f).remove tmp)) :
    Concluded s₀ outp mine safe (some (s.disk.data f)) t := by
  have hsane := h.found_sane henv
  have hf := hsane tmp f (h.found_sole henv).named
  refine ⟨h.place hc (hsane.enter hf).remove ?_ (fun p hne hm => ?_) hsafe, fun _ p hp => ?_⟩
  · rw [Disk.contents_remove (henv.apart tmp h.ours).symm, Disk.contents_enter_self,
      h.found_data henv]
  · have hpt : p ≠ tmp := fun he => hm (he ▸ h.ours)
    rw [Disk.contents_remove hpt, Disk.contents_enter hne]
  · rw [hc.disk]
    by_cases hpt : p = tmp
    · rw [hpt, Disk.dir_remove_self, h.absent]
    · rw [Disk.dir_remove_of_ne hpt, Disk.dir_enter_of_ne (henv.apart p hp)]
      exact ((henv.found h.later).dir s.disk p hp).trans (h.rest p hp hpt)

end Phases

/-! ## The parts of a run -/

/-- A moment of a run: what is in place is complete. -/
def Moment (s₀ : Sys) (outp : Path) (mine : Path → Prop) (safe : Prop)
    (complete : List UInt8 → Prop) (io : Io Sys) : Prop :=
  ∃ c, Track s₀ outp mine safe c io.dev ∧ ∀ out, c = some out → complete out

theorem Track.moment {complete : List UInt8 → Prop} {io : Io Sys}
    (h : Track s₀ outp mine safe none io.dev) : Moment s₀ outp mine safe complete io :=
  ⟨none, h, fun out ho => by cases ho⟩

section Ops

variable {α : Type} {Q : Io Sys → Prop} {io io₁ : Io Sys} {Post : Except String α → Io Sys → Prop}

/-- An operation whose outcome is known. -/
theorem meets_op {o : PkgOp} {k : PkgRet o → Pkg α} {r : PkgRet o}
    (ho : pkgHandler o io = some (r, io₁)) (hq : Q io)
    (hk : Meets pkgHandler Q (k r) io₁ Post) : Meets pkgHandler Q (Pkg.op o >>= k) io Post := by
  refine Meets.op_bind hq fun r' io' h => ?_
  obtain ⟨rfl, rfl⟩ := Prod.mk.inj (Option.some.inj (ho.symm.trans h))
  exact hk

/-- The same at the end of a function. -/
theorem meets_last {o : PkgOp} {r : PkgRet o} {Post : Except String (PkgRet o) → Io Sys → Prop}
    (ho : pkgHandler o io = some (r, io₁)) (hq : Q io) (hq₁ : Q io₁) (hp : Post (.ok r) io₁) :
    Meets pkgHandler Q (Pkg.op o) io Post := by
  refine ⟨⟨hq, fun r' io' h => ?_⟩, fun x io' hr => ?_⟩
  · obtain ⟨-, rfl⟩ := Prod.mk.inj (Option.some.inj (ho.symm.trans h))
    exact hq₁
  · obtain ⟨r', h, rfl⟩ := runs_op.mp hr
    obtain ⟨rfl, rfl⟩ := Prod.mk.inj (Option.some.inj (ho.symm.trans h))
    exact hp

theorem syserr_meets {k : String → Pkg α} (hq : Q io)
    (hk : ∀ msg, Meets pkgHandler Q (k msg) io Post) :
    Meets pkgHandler Q (Pkg.syserr >>= k) io Post := by
  have herr : Meets pkgHandler Q Pkg.syserr io fun r io' => (∃ msg, r = .ok msg) ∧ io' = io :=
    meets_op rfl hq (meets_last rfl hq hq ⟨⟨_, rfl⟩, rfl⟩)
  refine Meets.bind herr (fun e io' h => ?_) fun msg io' h => h.2 ▸ hk msg
  obtain ⟨⟨msg, he⟩, -⟩ := h
  cases he

end Ops

section Parts

variable (henv : Reliance s₀ outp mine) {complete : List UInt8 → Prop} {tmp : Path} {f : Nat}
  {overwrite : Bool}

/-- What `age_open_temp` leaves. -/
def TempMade (s₀ : Sys) (outp : Path) (mine : Path → Prop) (safe : Prop)
    (r : Except String (Option (Int × Path))) (io : Io Sys) : Prop :=
  match r with
  | .error _ => False
  | .ok none => NoTemp s₀ outp mine safe io.dev
  | .ok (some (fd, tmp)) => ∃ f, HasTemp s₀ outp mine safe tmp f io.dev ∧ 0 ≤ fd ∧
      io.dev.fds fd = some ⟨f, 0⟩ ∧ io.dev.disk.data f = []

/-- A step of something else than a call. -/
theorem NoTemp.same (h : NoTemp s₀ outp mine safe s) (hl : s.Later t) (hd : t.disk = s.disk)
    (hlog : t.log = s.log) : NoTemp s₀ outp mine safe t :=
  ⟨h.toTrack.same hl hd hlog, fun p hp => by rw [hd, h.names p hp]⟩

theorem NoTemp.seterrno (h : NoTemp s₀ outp mine safe s) (e : Errno) :
    NoTemp s₀ outp mine safe { s with errno := e } :=
  h.same ⟨fun _ i => ⟨i, rfl⟩, fun i => ⟨i, rfl⟩⟩ rfl rfl

theorem HasTemp.same (h : HasTemp s₀ outp mine safe tmp f s) (hl : s.Later t)
    (hd : t.disk = s.disk) (hlog : t.log = s.log) : HasTemp s₀ outp mine safe tmp f t :=
  ⟨⟨h.toTrack.same hl hd hlog, h.ours, h.absent, fun p hp hne => by rw [hd, h.rest p hp hne]⟩,
    hd ▸ h.sole⟩

theorem HasTemp.seterrno (h : HasTemp s₀ outp mine safe tmp f s) (e : Errno) :
    HasTemp s₀ outp mine safe tmp f { s with errno := e } :=
  h.same ⟨fun _ i => ⟨i, rfl⟩, fun i => ⟨i, rfl⟩⟩ rfl rfl

include henv

theorem openTempLoop_meets
    (hmine : ∀ i < 16, ∀ r, (s₀.draws i).bytes 8 = some r → mine (tempName outp r)) (tries : Nat) :
    ∀ (k : Nat) {io : Io Sys}, k + tries = 16 → NoTemp s₀ outp mine safe io.dev →
      (∀ i, io.dev.draws i = s₀.draws (i + k)) →
      Meets pkgHandler (Moment s₀ outp mine safe complete) (openTempLoop outp tries) io
        (TempMade s₀ outp mine safe) := by
  induction tries with
  | zero => exact fun k io _ h _ => Meets.pure h.moment h
  | succ tries ih =>
    intro k io hk h hdraws
    rw [openTempLoop]
    refine Meets.op_bind h.moment fun r io₁ ho => ?_
    obtain ⟨hr, rfl⟩ := Prod.mk.inj (Option.some.inj ho)
    have h₁ : NoTemp s₀ outp mine safe (io.dev.randombuf 8).2 :=
      h.same ⟨fun _ i => ⟨i, rfl⟩, fun i => ⟨i, rfl⟩⟩ rfl rfl
    have hdraw : (s₀.draws k).bytes 8 = r := by
      rw [← hr, ← Nat.zero_add k, ← hdraws]
      rfl
    cases r with
    | none =>
      exact meets_op rfl h₁.moment
        (Meets.pure (h₁.seterrno Errno.EIO).moment (h₁.seterrno Errno.EIO))
    | some r =>
      refine Meets.op_bind h₁.moment fun fd io₂ ho => ?_
      obtain ⟨hfd, rfl⟩ := Prod.mk.inj (Option.some.inj ho)
      have hours := hmine k (by omega) r hdraw
      rcases Sys.openExcl_cases (tempName outp r) (io.dev.randombuf 8).2 with
        ⟨hnone, hc⟩ | ⟨fd', hpos, hsome, hfree, hc, hopen⟩
      · obtain rfl : none = fd := hnone.symm.trans hfd
        have h₂ := h₁.idle henv hc
        refine meets_op rfl h₂.moment ?_
        split
        · exact Meets.pure h₂.moment h₂
        · refine ih (k + 1) (by omega) h₂ fun i => ?_
          rw [← Nat.add_assoc, Nat.add_right_comm, ← hdraws]
          exact congrFun hc.draws i
      · obtain rfl : some fd' = fd := hsome.symm.trans hfd
        have h₂ := h₁.create henv hours hfree hc
        refine Meets.pure h₂.moment ⟨_, h₂, hpos, hopen, ?_⟩
        show ((io.dev.randombuf 8).2.openExcl (tempName outp r)).2.disk.data _ = []
        rw [hc.disk]
        exact Function.update_self ..

theorem ageOpenTemp_meets
    (hmine : ∀ i < 16, ∀ r, (s₀.draws i).bytes 8 = some r → mine (tempName outp r)) (cap : Nat)
    {io : Io Sys} (h : NoTemp s₀ outp mine safe io.dev) (hdraws : io.dev.draws = s₀.draws) :
    Meets pkgHandler (Moment s₀ outp mine safe complete) (ageOpenTemp outp cap) io
      (TempMade s₀ outp mine safe) := by
  rw [ageOpenTemp]
  split
  · exact meets_op rfl h.moment
      (Meets.pure (h.seterrno .ENAMETOOLONG).moment (h.seterrno .ENAMETOOLONG))
  · exact openTempLoop_meets henv hmine 16 0 rfl h fun i => by rw [hdraws, Nat.add_zero]

theorem discardOutput_meets {io : Io Sys} (h : HasTemp s₀ outp mine safe tmp f io.dev) (fd : Int) :
    Meets pkgHandler (Moment s₀ outp mine safe complete) (discardOutput fd tmp) io
      fun r io' => r = .ok () ∧ Concluded s₀ outp mine safe none io'.dev := by
  rw [discardOutput]
  refine meets_op rfl h.moment ?_
  have h₁ := (h.idle henv (Sys.called_close fd io.dev)).1
  have h₂ := h₁.toUnfinished.unlink henv
  exact meets_op rfl h₁.moment (Meets.pure h₂.moment ⟨rfl, h₂⟩)

/-- What a move of the temporary file leaves. -/
def Moved (s₀ : Sys) (outp : Path) (mine : Path → Prop) (safe : Prop)
    (complete : List UInt8 → Prop) (tmp : Path) (f : Nat) (r : Except String Bool) (io : Io Sys) :
    Prop :=
  (r = .ok true ∧ ∃ out, Concluded s₀ outp mine safe (some out) io.dev ∧ complete out) ∨
    r = .ok false ∧ HasTemp s₀ outp mine safe tmp f io.dev

theorem rename_meets (hno : ¬ safe) {io : Io Sys}
    (h : HasTemp s₀ outp mine safe tmp f io.dev) (hcomplete : complete (io.dev.disk.data f)) :
    Meets pkgHandler (Moment s₀ outp mine safe complete) (Pkg.op (.rename tmp outp)) io
      (Moved s₀ outp mine safe complete tmp f) := by
  have hne := (h.found_sole henv).ne (henv.apart tmp h.ours).symm
  rcases Sys.rename_cases (h.found_sole henv).named hne with ⟨hr, hc⟩ | ⟨hr, hc⟩
  · have h₁ := (h.idle henv hc).1
    exact meets_last (r := false) (by rw [pkgHandler, onSys, succeeds, hr]; rfl) h.moment
      h₁.moment (.inr ⟨rfl, h₁⟩)
  · have h₁ := h.rename henv (fun hs => absurd hs hno) hc
    refine meets_last (r := true) (by rw [pkgHandler, onSys, succeeds, hr]; rfl) h.moment
      ⟨_, h₁.toTrack, ?_⟩ (.inl ⟨rfl, _, h₁, hcomplete⟩)
    rintro out ⟨⟩
    exact hcomplete

/-- `age_move` puts the file in place, or leaves it under its own name.  In
a safe run it does so by `link`. -/
theorem ageMove_meets (hsafe : safe → overwrite = false ∧
      ∀ i e, s₀.calls .link i = .fail e → e = .EEXIST) {io : Io Sys}
    (h : HasTemp s₀ outp mine safe tmp f io.dev) (hcomplete : complete (io.dev.disk.data f)) :
    Meets pkgHandler (Moment s₀ outp mine safe complete) (ageMove tmp outp overwrite) io
      (Moved s₀ outp mine safe complete tmp f) := by
  rw [ageMove]
  split
  · rename_i how
    exact rename_meets henv (fun hs => absurd how (by rw [(hsafe hs).1]; decide)) h hcomplete
  rcases Sys.link_cases outp (h.found_sole henv).named with ⟨hr, hc, he⟩ | ⟨hr, hfree, hc⟩
  · -- the destination exists, or the file system has no links
    obtain ⟨h₁, hd₁⟩ := h.idle henv hc
    refine meets_op (r := false) (by rw [pkgHandler, onSys, succeeds, hr]; rfl) h.moment ?_
    refine meets_op rfl h₁.moment ?_
    dsimp only
    split
    · exact Meets.pure h₁.moment (.inr ⟨rfl, h₁⟩)
    rename_i hne
    have hno : ¬ safe := by
      intro hs
      refine hne (he.elim (fun hfail => ?_) id)
      obtain ⟨j, hj⟩ := h.later.calls .link 0
      exact (hsafe hs).2 j _ (hj ▸ hfail)
    obtain ⟨h₂, hd₂⟩ := h₁.idle henv (Sys.called_access outp _)
    refine Meets.op_bind h₁.moment fun b io₂ ho => ?_
    obtain ⟨-, rfl⟩ := Prod.mk.inj (Option.some.inj ho)
    split
    · have h₃ := h₂.seterrno .EEXIST
      exact meets_op rfl h₂.moment (Meets.pure h₃.moment (.inr ⟨rfl, h₃⟩))
    · exact rename_meets henv hno h₂ ((hd₂.trans hd₁).symm ▸ hcomplete)
  · have h₁ := h.link henv hfree hc
    have h₂ := h₁.unlink henv
    have hdone : ∀ out, some (io.dev.disk.data f) = some out → complete out := by
      rintro out ⟨⟩
      exact hcomplete
    refine meets_op (r := true) (by rw [pkgHandler, onSys, succeeds, hr]; rfl) h.moment ?_
    refine meets_op rfl ⟨_, h₁.toTrack, hdone⟩ ?_
    exact Meets.pure ⟨_, h₂.toTrack, hdone⟩ (.inl ⟨rfl, _, h₂, hcomplete⟩)

/-- What `commit_output` leaves. -/
def Committed (s₀ : Sys) (outp : Path) (mine : Path → Prop) (safe : Prop)
    (complete : List UInt8 → Prop) (r : Except String (Option String)) (io : Io Sys) : Prop :=
  (r = .ok none ∧ ∃ out, Concluded s₀ outp mine safe (some out) io.dev ∧ complete out) ∨
    ∃ msg, r = .ok (some msg) ∧ Concluded s₀ outp mine safe none io.dev

omit henv in
theorem commitFailed_meets {io : Io Sys} (h : Concluded s₀ outp mine safe none io.dev) (e : Errno) :
    Meets pkgHandler (Moment s₀ outp mine safe complete) (commitFailed e) io
      (Committed s₀ outp mine safe complete) :=
  meets_op rfl h.moment (Meets.pure h.moment (.inr ⟨_, rfl, h⟩))

theorem commitOutput_meets (hsafe : safe → overwrite = false ∧
      ∀ i e, s₀.calls .link i = .fail e → e = .EEXIST) {io : Io Sys}
    (h : HasTemp s₀ outp mine safe tmp f io.dev) (hcomplete : complete (io.dev.disk.data f))
    (fd : Int) :
    Meets pkgHandler (Moment s₀ outp mine safe complete) (commitOutput fd tmp outp overwrite) io
      (Committed s₀ outp mine safe complete) := by
  rw [commitOutput]
  obtain ⟨h₁, hd₁⟩ := h.idle henv (Sys.called_fsync fd io.dev)
  refine Meets.op_bind h.moment fun b io₁ ho => ?_
  obtain ⟨-, rfl⟩ := Prod.mk.inj (Option.some.inj ho)
  have h₂ := h₁.idle henv (Sys.called_close fd _)
  split
  · -- `fsync` failed
    have h₃ := h₂.1.toUnfinished.unlink henv
    exact meets_op rfl h₁.moment (meets_op rfl h₁.moment (meets_op rfl h₂.1.moment
      (commitFailed_meets h₃ _)))
  refine Meets.op_bind h₁.moment fun b io₂ ho => ?_
  obtain ⟨-, rfl⟩ := Prod.mk.inj (Option.some.inj ho)
  obtain ⟨h₂, hd₂⟩ := h₂
  split
  · -- `close` failed
    have h₃ := h₂.toUnfinished.unlink henv
    exact meets_op rfl h₂.moment (meets_op rfl h₂.moment (commitFailed_meets h₃ _))
  rw [← hd₁, ← hd₂] at hcomplete
  have hmove : Meets pkgHandler (Moment s₀ outp mine safe complete) (ageMove tmp outp overwrite)
      { io with dev := (Sys.close fd (Sys.fsync fd io.dev).2).2 }
      (Moved s₀ outp mine safe complete tmp f) := ageMove_meets henv hsafe h₂ hcomplete
  refine Meets.bind hmove (fun e io' hm => ?_) fun b io' hm => ?_
  · rcases hm with ⟨he, -⟩ | ⟨he, -⟩ <;> cases he
  rcases hm with ⟨he, out, hout, hc⟩ | ⟨he, h₃⟩
  · obtain rfl := Except.ok.inj he
    refine Meets.pure ⟨_, hout.toTrack, ?_⟩ (.inl ⟨rfl, out, hout, hc⟩)
    rintro out' ⟨⟩
    exact hc
  · obtain rfl := Except.ok.inj he
    have h₄ := h₃.toUnfinished.unlink henv
    refine meets_op rfl h₃.moment (meets_op rfl h₃.moment ?_)
    split
    · exact Meets.pure h₄.moment (.inr ⟨_, rfl, h₄⟩)
    · exact commitFailed_meets h₄ _

/-! ## The codec on the temporary file -/

/-- The descriptor stands in the temporary file. -/
structure Filling (s₀ : Sys) (outp : Path) (mine : Path → Prop) (safe : Prop) (tmp : Path) (f : Nat)
    (fd : Int) (s : Sys) : Prop extends HasTemp s₀ outp mine safe tmp f s where
  opened : ∃ pos, s.fds fd = some ⟨f, pos⟩

variable {fd : Int}

omit henv in
theorem Filling.same (h : Filling s₀ outp mine safe tmp f fd s) (hl : s.Later t)
    (hd : t.disk = s.disk) (hlog : t.log = s.log) (hfds : t.fds = s.fds) :
    Filling s₀ outp mine safe tmp f fd t :=
  ⟨h.toHasTemp.same hl hd hlog, hfds ▸ h.opened⟩

omit henv in
theorem Filling.malloc (h : Filling s₀ outp mine safe tmp f fd s) (n : Nat) :
    Filling s₀ outp mine safe tmp f fd (s.malloc n).2 := by
  rw [Sys.malloc]
  split <;> exact h.same ⟨fun _ i => ⟨i, rfl⟩, fun i => ⟨i, rfl⟩⟩ rfl rfl rfl

theorem Filling.ageread (h : Filling s₀ outp mine safe tmp f fd s) (fi : Int) (n : Nat) :
    Filling s₀ outp mine safe tmp f fd (s.ageread fi n).2 := by
  rw [Sys.ageread]
  split
  · obtain ⟨hc, hsame⟩ := Sys.called_read fi n s
    exact ⟨(h.toHasTemp.idle henv hc).1, hsame fd f h.opened⟩
  · split <;> exact h.same ⟨fun _ i => ⟨i, rfl⟩, fun i => ⟨i, rfl⟩⟩ rfl rfl rfl

theorem Filling.write (h : Filling s₀ outp mine safe tmp f fd s) (bs : List UInt8) :
    Filling s₀ outp mine safe tmp f fd (s.write fd bs).2 := by
  rcases Sys.write_cases fd bs s with ⟨-, hc, hsame⟩ | ⟨file, pos, k, -, -, hfd, hc, hfds⟩
  · exact ⟨(h.toHasTemp.idle henv hc).1, hsame fd f h.opened⟩
  · obtain ⟨pos', hopen⟩ := h.opened
    obtain ⟨rfl, rfl⟩ := OpenFile.mk.inj (Option.some.inj (hopen.symm.trans hfd))
    refine ⟨h.toHasTemp.put henv hc, pos' + k, ?_⟩
    rw [hfds, Function.update_self]

theorem Filling.agewrite (h : Filling s₀ outp mine safe tmp f fd s) {bs : List UInt8}
    {r : Option Nat} {s' : Sys} (hw : s.agewrite fd bs = some (r, s')) :
    Filling s₀ outp mine safe tmp f fd s' := by
  cases Sys.agewrite_spec hw with
  | file _ => exact h.write henv bs
  | closed _ _ => exact h.same ⟨fun _ i => ⟨i, rfl⟩, fun i => ⟨i, rfl⟩⟩ rfl rfl rfl
  | source _ _ _ => exact h.same ⟨fun _ i => ⟨i, rfl⟩, fun i => ⟨i, rfl⟩⟩ rfl rfl rfl
  | sink _ _ _ hwritten =>
    cases hwritten with
    | overflow _ => exact h.same ⟨fun _ i => ⟨i, rfl⟩, fun i => ⟨i, rfl⟩⟩ rfl rfl rfl
    | @full ncap _ _ =>
      exact (h.malloc ncap).same ⟨fun _ i => ⟨i, rfl⟩, fun i => ⟨i, rfl⟩⟩ rfl rfl rfl
    | fits _ _ => exact h.same ⟨fun _ i => ⟨i, rfl⟩, fun i => ⟨i, rfl⟩⟩ rfl rfl rfl
    | @grown ncap _ _ _ _ =>
      exact (h.malloc ncap).same ⟨fun _ i => ⟨i, rfl⟩, fun i => ⟨i, rfl⟩⟩ rfl rfl rfl

/-- Whatever the codec reads, and what it writes to the descriptor. -/
theorem filling_stable (fi : Int) : Stable fi fd (Filling s₀ outp mine safe tmp f fd) where
  ageread := fun {d n r d'} h _ he => by
    have hd : (Sys.ageread fi n d).2 = d' := congrArg Prod.snd he
    exact hd ▸ h.ageread henv fi n
  agewrite := fun h _ he => h.agewrite henv he
  alloc := fun {d n r d'} h he => by
    have hd : (Sys.malloc n d).2 = d' := congrArg Prod.snd he
    exact hd ▸ h.malloc n
  randombuf := fun {d n r d'} h he => by
    have hd : (Sys.randombuf n d).2 = d' := congrArg Prod.snd he
    exact hd ▸ h.same ⟨fun _ i => ⟨i, rfl⟩, fun i => ⟨i, rfl⟩⟩ rfl rfl rfl

/-- The codec between any input and the temporary file. -/
theorem age_meets {α : Type} {p : Age α} {io : Io Sys}
    (h : Filling s₀ outp mine safe tmp f io.ob.fd io.dev) :
    Meets pkgHandler (Moment s₀ outp mine safe complete) (Pkg.age p) io
      fun _ io' => HasTemp s₀ outp mine safe tmp f io'.dev := by
  have hstays : Stays io.ib.fd io.ob.fd (Filling s₀ outp mine safe tmp f io.ob.fd) io :=
    ⟨h, rfl, rfl⟩
  have hmeets := Meets.of_ops (h := Prog.restrict PkgOp.age (fun _ r => r) pkgHandler)
    (Q := Stays io.ib.fd io.ob.fd (Filling s₀ outp mine safe tmp f io.ob.fd))
      (fun o s r s' hI ho => ?_)
    (p := p) hstays
  · exact ((Meets.embed hmeets).weaken fun _ hs => hs.dev.moment).mono
      fun _ _ hs => hs.dev.toHasTemp
  · obtain ⟨⟨r', t⟩, hs', he⟩ := Option.map_eq_some_iff.mp ho
    rw [← (Prod.mk.inj he).2]
    exact ageHandler_stable (filling_stable henv _) o hI r' t hs'

end Parts

/-! ## Whole runs -/

/-- The names that a run may draw for its temporary file. -/
def ownName (s : Sys) (outp p : Path) : Prop :=
  ∃ i < 16, ∃ r, (s.draws i).bytes 8 = some r ∧ p = tempName outp r

theorem tempName_ne (outp : Path) (r : Bytes 8) : tempName outp r ≠ outp := by
  intro h
  have hlen := congrArg List.length h
  rw [tempName, List.length_append, List.length_append,
    show (ascii ".age-").length = 5 by decide] at hlen
  omega

/-- The other processes leave the names alone that the run may draw. -/
def Undisturbed (s : Sys) (outp : Path) : Prop := ∀ i, Spares (ownName s outp) (s.others i)

theorem Undisturbed.reliance {s : Sys} {outp : Path} (h : Undisturbed s outp) :
    Reliance s outp (ownName s outp) := by
  refine ⟨h, ?_⟩
  rintro p ⟨i, -, r, -, rfl⟩
  exact tempName_ne outp r

/-- Without `overwrite`, on a file system where a `link` succeeds or finds
that the destination exists. -/
def Exclusive (overwrite : Bool) (s : Sys) : Prop :=
  overwrite = false ∧ ∀ i e, s.calls .link i = .fail e → e = .EEXIST

/-- What a run leaves when it ends, with an answer or with an error of R. -/
structure RunEnd (s₀ : Sys) (outp : Path) (mine : Path → Prop) (safe : Prop)
    (complete : List UInt8 → Prop) (r : Except String Result) (c : Option (List UInt8))
    (s : Sys) : Prop
    extends Concluded s₀ outp mine safe c s where
  complete : ∀ out, c = some out → complete out
  failed : ∀ cls msg, r = .ok (.err cls msg) → c = none
  succeeded : ∀ payload, r = .ok (.ok payload) → c ≠ none

section Runs

variable {complete : List UInt8 → Prop} {io : Io Sys}

theorem Concluded.same (h : Concluded s₀ outp mine safe c s) (hl : s.Later t)
    (hd : t.disk = s.disk) (hlog : t.log = s.log) : Concluded s₀ outp mine safe c t :=
  ⟨h.toTrack.same hl hd hlog, fun hlets p hp => by rw [hd, h.names hlets p hp]⟩

/-- The last calls are allocations of R. -/
theorem ralloc_meets {α : Type} {p : Pkg α} {Post : Except String α → Io Sys → Prop}
    (h : Concluded s₀ outp mine safe c io.dev) (hcomplete : ∀ out, c = some out → complete out)
    (herr : ∀ e io', Concluded s₀ outp mine safe c io'.dev → Post (.error e) io')
    (hp : ∀ io', Concluded s₀ outp mine safe c io'.dev →
      Meets pkgHandler (Moment s₀ outp mine safe complete) p io' Post) :
    Meets pkgHandler (Moment s₀ outp mine safe complete) (Pkg.ralloc >>= fun _ => p) io Post := by
  have h₁ : Concluded s₀ outp mine safe c (tookRalloc io).dev :=
    h.same ⟨fun _ i => ⟨i, rfl⟩, fun i => ⟨i, rfl⟩⟩ rfl rfl
  have hmoment : ∀ {io' : Io Sys}, Concluded s₀ outp mine safe c io'.dev →
      Moment s₀ outp mine safe complete io' := fun h => ⟨c, h.toTrack, hcomplete⟩
  have halloc : Meets pkgHandler (Moment s₀ outp mine safe complete) Pkg.ralloc io
      fun _ io' => Concluded s₀ outp mine safe c io'.dev := by
    have hstep : pkgHandler .ralloc io = some (io.dev.rallocs 0, tookRalloc io) := rfl
    refine meets_op hstep (hmoment h) ?_
    split
    · exact Meets.pure (hmoment h₁) h₁
    · exact Meets.throw (hmoment h₁) h₁
  exact Meets.bind halloc (fun e io' h => herr e io' h) fun _ io' h => hp io' h

/-- A run that answers with an error. -/
theorem resultErr_meets (h : Concluded s₀ outp mine safe none io.dev) (cls msg : String) :
    Meets pkgHandler (Moment s₀ outp mine safe complete) (resultErr cls msg) io
      fun r io' => ∃ c, RunEnd s₀ outp mine safe complete r c io'.dev := by
  have hnone : ∀ out : List UInt8, none = some out → complete out := by
    rintro out ⟨⟩
  have hend : ∀ (r : Except String Result) (io' : Io Sys), (∀ payload, r ≠ .ok (.ok payload)) →
      Concluded s₀ outp mine safe none io'.dev →
      ∃ c, RunEnd s₀ outp mine safe complete r c io'.dev := fun r io' hr h =>
    ⟨none, h, hnone, fun _ _ _ => rfl, fun payload he => absurd he (hr payload)⟩
  refine ralloc_meets h hnone (fun e io' h => hend _ io' (fun _ he => by cases he) h)
    fun io' h => ?_
  refine ralloc_meets h hnone (fun e io' h => hend _ io' (fun _ he => by cases he) h)
    fun io' h => ?_
  refine ralloc_meets h hnone (fun e io' h => hend _ io' (fun _ he => by cases he) h)
    fun io' h => ?_
  exact Meets.pure h.moment (hend _ io' (fun _ he => by cases he) h)

/-- A run that has put its output in place. -/
theorem resultOk_meets {out : List UInt8}
    (h : Concluded s₀ outp mine safe (some out) io.dev) (hcomplete : complete out)
    (payload : Sexp) :
    Meets pkgHandler (Moment s₀ outp mine safe complete)
      (Pkg.ralloc >>= fun _ => resultOk payload) io
      fun r io' => ∃ c, RunEnd s₀ outp mine safe complete r c io'.dev := by
  have hsome : ∀ out', some out = some out' → complete out' := by
    rintro out' ⟨⟩
    exact hcomplete
  have hend : ∀ (r : Except String Result) (io' : Io Sys), (∀ cls msg, r ≠ .ok (.err cls msg)) →
      Concluded s₀ outp mine safe (some out) io'.dev →
      ∃ c, RunEnd s₀ outp mine safe complete r c io'.dev := fun r io' hr h =>
    ⟨some out, h, hsome, fun cls msg he => absurd he (hr cls msg), fun _ _ he => by cases he⟩
  refine ralloc_meets h hsome (fun e io' h => hend _ io' (fun _ _ he => by cases he) h)
    fun io' h => ?_
  refine ralloc_meets h hsome (fun e io' h => hend _ io' (fun _ _ he => by cases he) h)
    fun io' h => ?_
  refine ralloc_meets h hsome (fun e io' h => hend _ io' (fun _ _ he => by cases he) h)
    fun io' h => ?_
  exact Meets.pure ⟨_, h.toTrack, hsome⟩ (hend _ io' (fun _ _ he => by cases he) h)

/-- The start of a run. -/
theorem NoTemp.start {s : Sys} (hsane : s.disk.Sane) : NoTemp s outp mine safe s :=
  ⟨⟨.refl s, hsane, ⟨[], (List.append_nil _).symm, .start⟩, fun _ => rfl, fun _ _ _ _ => rfl⟩,
    fun _ _ => rfl⟩

theorem NoTemp.concluded (h : NoTemp s₀ outp mine safe s) : Concluded s₀ outp mine safe none s :=
  ⟨h.toTrack, fun _ => h.names⟩

theorem NoTemp.malloc (h : NoTemp s₀ outp mine safe s) (n : Nat) :
    NoTemp s₀ outp mine safe (s.malloc n).2 := by
  rw [Sys.malloc]
  split <;> exact h.same ⟨fun _ i => ⟨i, rfl⟩, fun i => ⟨i, rfl⟩⟩ rfl rfl

theorem draws_malloc (n : Nat) (s : Sys) : (s.malloc n).2.draws = s.draws := by
  rw [Sys.malloc]
  split <;> rfl

/-- What the transform makes of the input: the contents of the temporary
file when it has ended without an error. -/
def Transformed (m : Memory) (inp outp : Path) (isarmor recording : Bool) (fn : Age Unit)
    (io : Io Sys) (out : List UInt8) : Prop :=
  ∃ infd tmpfd tmppath t t', Streaming m inp outp isarmor recording io infd tmpfd tmppath t ∧
    Runs pkgHandler (Pkg.age fn) t (.ok ()) t' ∧ t'.dev.disk.contents tmppath = some out

/-- An outcome of a program, with the run that led to it. -/
theorem Meets.runs {α : Type} {p : Pkg α} {Q : Io Sys → Prop}
    {Post : Except String α → Io Sys → Prop} (h : Meets pkgHandler Q p io Post) :
    Meets pkgHandler Q p io fun r io' => Post r io' ∧ Runs pkgHandler p io r io' :=
  ⟨h.always, fun r io' hr => ⟨h.post r io' hr, hr⟩⟩

theorem runFileTransform_meets (m : Memory) (inp outp : Path) (isarmor recording overwrite : Bool)
    (fn : Age Unit) (failClass : String) (io : Io Sys) (hsane : io.dev.disk.Sane)
    (henv : Undisturbed io.dev outp) :
    Meets pkgHandler (Moment io.dev outp (ownName io.dev outp) (Exclusive overwrite io.dev)
        (Transformed m inp outp isarmor recording fn io))
      (runFileTransform m inp outp isarmor recording overwrite fn failClass) io
      fun r io' => ∃ c, RunEnd io.dev outp (ownName io.dev outp) (Exclusive overwrite io.dev)
        (Transformed m inp outp isarmor recording fn io) r c io'.dev := by
  have henv := henv.reliance
  have hmine : ∀ i < 16, ∀ r, (io.dev.draws i).bytes 8 = some r →
      ownName io.dev outp (tempName outp r) := fun i hi r hr => ⟨i, hi, r, hr, rfl⟩
  have h₀ : NoTemp io.dev outp (ownName io.dev outp) (Exclusive overwrite io.dev) io.dev :=
    .start hsane
  unfold runFileTransform
  refine Meets.op_bind h₀.moment fun ok s₁ hmalloc => ?_
  have h₁ : NoTemp io.dev outp (ownName io.dev outp) (Exclusive overwrite io.dev) s₁.dev := by
    rw [← (Prod.mk.inj (Option.some.inj hmalloc)).2]
    exact h₀.malloc _
  have hdraws₁ : s₁.dev.draws = io.dev.draws := by
    rw [← (Prod.mk.inj (Option.some.inj hmalloc)).2]
    exact draws_malloc _ _
  cases ok with
  | false => exact resultErr_meets h₁.concluded _ _
  | true =>
  rw [if_neg (not_not.mpr rfl)]
  refine Meets.op_bind h₁.moment fun fd s₂ hopen => ?_
  have hs₂ := (Prod.mk.inj (Option.some.inj hopen)).2
  have hc₂ := Sys.called_openRead inp s₁.dev
  have h₂ : NoTemp io.dev outp (ownName io.dev outp) (Exclusive overwrite io.dev) s₂.dev := by
    rw [← hs₂]
    exact h₁.idle henv hc₂
  cases fd with
  | none => exact syserr_meets h₂.moment fun msg => resultErr_meets h₂.concluded _ _
  | some infd =>
  have hdraws₂ : s₂.dev.draws = io.dev.draws := by
    rw [← hs₂]
    exact hc₂.draws.trans hdraws₁
  refine Meets.bind (Meets.runs (ageOpenTemp_meets henv hmine _ h₂ hdraws₂))
    (fun e s₃ h => h.1.elim) fun tmp s₃ h => ?_
  obtain ⟨hmade, htemp⟩ := h
  rcases tmp with _ | ⟨tmpfd, tmppath⟩
  · have h₃ : NoTemp io.dev outp (ownName io.dev outp) (Exclusive overwrite io.dev) s₃.dev := hmade
    refine syserr_meets h₃.moment fun msg => meets_op rfl h₃.moment ?_
    exact resultErr_meets (h₃.idle henv (Sys.called_close infd s₃.dev)).concluded _ _
  obtain ⟨f, h₃, -, hfd, -⟩ := hmade
  refine Meets.op_bind h₃.moment fun _ s₄ hib => ?_
  have hs₄ := (Prod.mk.inj (Option.some.inj hib)).2
  refine Meets.op_bind (by rw [← hs₄]; exact h₃.moment) fun _ t hob => ?_
  have ht := (Prod.mk.inj (Option.some.inj hob)).2
  have hfill : Filling io.dev outp (ownName io.dev outp) (Exclusive overwrite io.dev) tmppath f
      t.ob.fd t.dev := by
    rw [← ht, ← hs₄]
    exact ⟨h₃, 0, hfd⟩
  refine Meets.attempt_bind (Meets.runs (age_meets henv hfill)) fun x t' h => ?_
  obtain ⟨h₅, hfn⟩ := h
  refine meets_op rfl h₅.moment ?_
  obtain ⟨h₆, hdata⟩ := h₅.idle henv (Sys.called_close infd t'.dev)
  cases x with
  | error e =>
    refine Meets.bind (discardOutput_meets henv h₆ tmpfd) (fun e io' h => by cases h.1)
      fun _ io' h => ?_
    exact resultErr_meets h.2 _ _
  | ok _ =>
    have hcomplete : Transformed m inp outp isarmor recording fn io (t'.dev.disk.data f) := by
      refine ⟨infd, tmpfd, tmppath, t, t',
        ⟨s₁, s₂, s₃, hmalloc, hopen, htemp, s₄, hib, hob⟩, hfn, ?_⟩
      rw [Disk.contents, h₅.sole.named]
      rfl
    rw [← hdata] at hcomplete
    have hexcl : Exclusive overwrite io.dev → overwrite = false ∧
        ∀ i e, io.dev.calls .link i = .fail e → e = .EEXIST := fun h => h
    have hcommit : Meets pkgHandler _ (commitOutput tmpfd tmppath outp overwrite)
        { t' with dev := (t'.dev.close infd).2 } _ :=
      commitOutput_meets henv hexcl h₆ hcomplete tmpfd
    refine Meets.bind hcommit (fun e io' h => ?_) fun x io' h => ?_
    · rcases h with ⟨he, -⟩ | ⟨msg, he, -⟩ <;> cases he
    · rcases h with ⟨he, out, hout, hc⟩ | ⟨msg, he, hnone⟩
      · obtain rfl := Except.ok.inj he
        exact resultOk_meets hout hc _
      · obtain rfl := Except.ok.inj he
        exact resultErr_meets hnone _ _

end Runs

/-! ## Key files -/

/-- The text of a key file. -/
def keyFileText (C : Crypto) (ts : List UInt8) : List (Bytes 32) → Option (List UInt8)
  | [] => some []
  | key :: keys => do
    let (pubbech, privbech) ← identityTexts C key
    let rest ← keyFileText C ts keys
    some (identityLines ts pubbech privbech ++ rest)

/-- The temporary file holds `bs`, and the descriptor stands at its end. -/
structure Written (s₀ : Sys) (outp : Path) (mine : Path → Prop) (safe : Prop) (tmp : Path) (f : Nat)
    (fd : Int) (bs : List UInt8) (s : Sys) : Prop extends HasTemp s₀ outp mine safe tmp f s where
  descriptor : 0 ≤ fd
  opened : s.fds fd = some ⟨f, bs.length⟩
  data : s.disk.data f = bs

section KeyFiles

variable (henv : Reliance s₀ outp mine) {complete : List UInt8 → Prop} {tmp : Path} {f : Nat}
  {fd : Int} {bs : List UInt8}

/-- A write at the end of a file. -/
theorem Disk.data_put_end {d : Disk} {bs xs : List UInt8} (h : d.data f = bs) :
    (d.put f bs.length xs).data f = bs ++ xs := by
  show Function.update d.data f _ f = _
  rw [Function.update_self, h, List.take_length, List.drop_of_length_le (by omega), List.append_nil]

include henv

/-- One write at the end of the temporary file. -/
theorem Written.agewrite (xs : List UInt8) (h : Written s₀ outp mine safe tmp f fd bs s) :
    (∃ t, Descr.agewrite fd xs s = some (none, t) ∧ HasTemp s₀ outp mine safe tmp f t) ∨
    ∃ k t, Descr.agewrite fd xs s = some (some k, t) ∧
      Written s₀ outp mine safe tmp f fd (bs ++ xs.take k) t := by
  have hw : Descr.agewrite fd xs s = some (s.write fd xs) := if_pos h.descriptor
  rw [hw]
  rcases Sys.write_cases fd xs s with ⟨hr, hc, -⟩ | ⟨file, pos, k, hr, hk, hfd, hc, hfds⟩
  · refine .inl ⟨(s.write fd xs).2, ?_, (h.toHasTemp.idle henv hc).1⟩
    rw [← hr]
  · obtain ⟨rfl, rfl⟩ := OpenFile.mk.inj (Option.some.inj (h.opened.symm.trans hfd))
    refine .inr ⟨k, (s.write fd xs).2, ?_, h.toHasTemp.put henv hc, h.descriptor, ?_, ?_⟩
    · rw [← hr]
    · rw [hfds, Function.update_self, List.length_append, List.length_take, Nat.min_eq_left hk]
    · rw [hc.disk]
      exact Disk.data_put_end ((h.toHasTemp.found_data henv).trans h.data)

theorem Written.writeallLoop (fuel : Nat) : ∀ {xs bs : List UInt8} {s : Sys}, xs.length ≤ fuel →
    Written s₀ outp mine safe tmp f fd bs s →
    ∃ ok t, writeallLoop fd fuel xs s = some (ok, t) ∧ HasTemp s₀ outp mine safe tmp f t ∧
      (ok = true → Written s₀ outp mine safe tmp f fd (bs ++ xs) t) := by
  induction fuel with
  | zero =>
    intro xs bs s hlen h
    obtain rfl : xs = [] := List.length_eq_zero_iff.mp (by omega)
    exact ⟨true, s, by rw [Agecrypt.writeallLoop], h.toHasTemp,
      fun _ => (List.append_nil bs).symm ▸ h⟩
  | succ fuel ih =>
    intro xs bs s hlen h
    rcases xs with _ | ⟨x, xs⟩
    · exact ⟨true, s, by rw [Agecrypt.writeallLoop], h.toHasTemp,
        fun _ => (List.append_nil bs).symm ▸ h⟩
    rw [Agecrypt.writeallLoop]
    rcases h.agewrite henv (x :: xs) with ⟨t, hw, h'⟩ | ⟨k, t, hw, h'⟩
    · rw [hw]
      exact ⟨false, t, rfl, h', fun he => by cases he⟩
    rw [hw]
    cases k with
    | zero => exact ⟨false, t, rfl, h'.toHasTemp, fun he => by cases he⟩
    | succ k =>
      have hrest : ((x :: xs).drop (k + 1)).length ≤ fuel := by
        rw [List.length_drop]
        omega
      obtain ⟨ok, u, hu, htemp, hok⟩ := ih hrest h'
      refine ⟨ok, u, hu, htemp, fun he => ?_⟩
      have := hok he
      rwa [List.append_assoc, List.take_append_drop] at this

/-- The loop of `age_c_identity_write` writes the text, or it stops with a
class and a message. -/
theorem writeIdentities_meets (C : Crypto) (ts : List UInt8) (keys : List (Bytes 32)) :
    ∀ {io : Io Sys} {bs : List UInt8}, Written s₀ outp mine safe tmp f fd bs io.dev →
      Meets pkgHandler (Moment s₀ outp mine safe complete) (writeIdentities C fd ts keys) io
        fun r io' => HasTemp s₀ outp mine safe tmp f io'.dev ∧ ∃ x, r = .ok x ∧
          (x = none → ∃ text, keyFileText C ts keys = some text ∧
            io'.dev.disk.data f = bs ++ text) := by
  induction keys with
  | nil =>
    intro io bs h
    refine Meets.pure h.toHasTemp.moment ⟨h.toHasTemp, none, rfl, fun _ => ⟨[], rfl, ?_⟩⟩
    rw [h.data, List.append_nil]
  | cons key keys ih =>
    intro io bs h
    rw [writeIdentities, keyFileText]
    cases identityTexts C key with
    | none => exact Meets.pure h.toHasTemp.moment ⟨h.toHasTemp, _, rfl, fun he => by cases he⟩
    | some texts =>
      obtain ⟨pubbech, privbech⟩ := texts
      dsimp only
      split
      · exact Meets.pure h.toHasTemp.moment ⟨h.toHasTemp, _, rfl, fun he => by cases he⟩
      have hlen : (identityLines ts pubbech privbech).length ≤
          (identityLines ts pubbech privbech).length := Nat.le_refl _
      obtain ⟨ok, t, hw, htemp, hok⟩ := h.writeallLoop henv _ hlen
      have ho : pkgHandler (.writeall fd (identityLines ts pubbech privbech)) io =
          some (ok, { io with dev := t }) := by
        rw [pkgHandler, writeall, hw]
        rfl
      refine meets_op ho h.toHasTemp.moment ?_
      cases ok with
      | false =>
        exact Meets.pure (Track.moment htemp.toTrack) ⟨htemp, _, rfl, fun he => by cases he⟩
      | true =>
        refine (ih (hok rfl)).mono fun r io' hr => ⟨hr.1, ?_⟩
        obtain ⟨-, x, hx, htext⟩ := hr
        refine ⟨x, hx, fun he => ?_⟩
        obtain ⟨text, htext, hdata⟩ := htext he
        refine ⟨identityLines ts pubbech privbech ++ text, ?_, ?_⟩
        · rw [htext]
          rfl
        · rw [hdata, List.append_assoc]

end KeyFiles

/-- `CHAR(STRING_ELT(x, 0))`, where it has a value. -/
def sexpText : Sexp → Option (List UInt8)
  | .str (some s :: _) => some s
  | .str (none :: _) => some (ascii "NA")
  | _ => none

section Entry

variable {complete : List UInt8 → Prop} {io : Io Sys}

theorem charElt_meets (x : Sexp) (h : NoTemp s₀ outp mine safe io.dev) :
    Meets pkgHandler (Moment s₀ outp mine safe complete) (Pkg.charElt x 0) io
      fun r io' => io' = io ∧ ∀ s, r = .ok s → sexpText x = some s := by
  unfold Pkg.charElt
  split
  · rename_i els
    cases els with
    | nil => exact Meets.op_bind h.moment fun r _ _ => r.elim
    | cons e els =>
      cases e with
      | none =>
        refine Meets.pure h.moment ⟨rfl, fun s hs => ?_⟩
        rw [← Except.ok.inj hs]
        rfl
      | some e =>
        refine Meets.pure h.moment ⟨rfl, fun s hs => ?_⟩
        rw [← Except.ok.inj hs]
        rfl
  · exact Meets.throw h.moment ⟨rfl, fun s hs => by cases hs⟩

theorem NoTemp.tookRalloc (h : NoTemp s₀ outp mine safe io.dev) :
    NoTemp s₀ outp mine safe (tookRalloc io).dev :=
  h.same ⟨fun _ i => ⟨i, rfl⟩, fun i => ⟨i, rfl⟩⟩ rfl rfl

theorem idAddr_meets (ext : Sexp) (h : NoTemp s₀ outp mine safe io.dev) :
    Meets pkgHandler (Moment s₀ outp mine safe complete) (idAddr ext) io
      fun r io' => NoTemp s₀ outp mine safe io'.dev ∧ io'.dev.draws = io.dev.draws ∧
        ∀ keys, r = .ok (some keys) → ext = .extptr true (some keys) := by
  unfold idAddr
  split
  · rename_i tag keys
    have h₁ := h.tookRalloc
    have htag : Meets pkgHandler (Moment s₀ outp mine safe complete) idTag io
        fun _ io' => io' = tookRalloc io := by
      rw [idTag]
      have hstep : pkgHandler .ralloc io = some (io.dev.rallocs 0, Agecrypt.tookRalloc io) := rfl
      refine meets_op hstep h.moment ?_
      split
      · exact Meets.pure h₁.moment rfl
      · exact Meets.throw h₁.moment rfl
    refine Meets.bind htag (fun e io' he => ?_) fun _ io' he => ?_
    · rw [he]
      exact ⟨h₁, rfl, fun _ he => by cases he⟩
    · rw [he]
      refine Meets.pure h₁.moment ⟨h₁, rfl, fun ks hk => ?_⟩
      have hk := Except.ok.inj hk
      split at hk
      · rename_i ht
        rw [ht, hk]
      · cases hk
  · exact Meets.pure h.moment ⟨h, rfl, fun _ he => by cases Except.ok.inj he⟩

/-- The text that `age_c_identity_write` is to put in place. -/
def KeyFileOf (C : Crypto) (ext created : Sexp) (out : List UInt8) : Prop :=
  ∃ keys ts, ext = .extptr true (some keys) ∧ sexpText created = some ts ∧
    keyFileText C ts keys = some out

theorem ageCIdentityWrite_meets (C : Crypto) (R : RApi) (ext path created overwrite : Sexp)
    (io : Io Sys) (hpath : ∀ p, sexpText path = some p → p = outp) (hsane : io.dev.disk.Sane)
    (henv : Undisturbed io.dev outp) :
    Meets pkgHandler (Moment io.dev outp (ownName io.dev outp)
        (Exclusive (R.asLogical overwrite = some true) io.dev) (KeyFileOf C ext created))
      (ageCIdentityWrite C R ext path created overwrite) io
      fun r io' => ∃ c, RunEnd io.dev outp (ownName io.dev outp)
        (Exclusive (R.asLogical overwrite = some true) io.dev) (KeyFileOf C ext created) r c
        io'.dev := by
  have henv := henv.reliance
  have hmine : ∀ i < 16, ∀ r, (io.dev.draws i).bytes 8 = some r →
      ownName io.dev outp (tempName outp r) := fun i hi r hr => ⟨i, hi, r, hr, rfl⟩
  have hnone : ∀ {r : Except String Result} {io' : Io Sys},
      (∀ payload, r ≠ .ok (.ok payload)) →
      NoTemp io.dev outp (ownName io.dev outp)
        (Exclusive (R.asLogical overwrite = some true) io.dev) io'.dev →
      ∃ c, RunEnd io.dev outp (ownName io.dev outp)
        (Exclusive (R.asLogical overwrite = some true) io.dev) (KeyFileOf C ext created) r c
        io'.dev := fun hr h =>
    ⟨none, h.concluded, fun _ he => (by cases he), fun _ _ _ => rfl,
      fun payload he => absurd he (hr payload)⟩
  have h₀ : NoTemp io.dev outp (ownName io.dev outp)
      (Exclusive (R.asLogical overwrite = some true) io.dev) io.dev := .start hsane
  unfold ageCIdentityWrite
  refine meets_op rfl h₀.moment ?_
  refine Meets.bind (idAddr_meets ext h₀) (fun e io' h => hnone (fun _ he => by cases he) h.1)
    fun keys s₁ h => ?_
  obtain ⟨h₁, hdraws₁, hext⟩ := h
  cases keys with
  | none => exact resultErr_meets h₁.concluded _ _
  | some keys =>
  refine Meets.bind (charElt_meets created h₁) (fun e io' h => ?_) fun ts s₂ h => ?_
  · rw [h.1]
    exact hnone (fun _ he => by cases he) h₁
  obtain ⟨rfl, hts⟩ := h
  refine Meets.bind (charElt_meets path h₁) (fun e io' h => ?_) fun p s₃ h => ?_
  · rw [h.1]
    exact hnone (fun _ he => by cases he) h₁
  obtain ⟨rfl, hp⟩ := h
  obtain rfl := hpath p (hp p rfl)
  refine Meets.op_bind h₁.moment fun ok s₄ hmalloc => ?_
  have h₄ := h₁.malloc (p.length + 24)
  have hdraws₄ := (draws_malloc (p.length + 24) s₃.dev).trans hdraws₁
  obtain ⟨-, rfl⟩ := Prod.mk.inj (Option.some.inj hmalloc)
  split
  · exact resultErr_meets h₄.concluded _ _
  refine Meets.bind (ageOpenTemp_meets henv hmine _ h₄ hdraws₄) (fun e io' h => h.elim)
    fun tmp s₅ hmade => ?_
  rcases tmp with _ | ⟨tmpfd, tmppath⟩
  · have h₅ : NoTemp io.dev p (ownName io.dev p)
        (Exclusive (R.asLogical overwrite = some true) io.dev) s₅.dev := hmade
    exact syserr_meets h₅.moment fun msg => resultErr_meets h₅.concluded _ _
  obtain ⟨f, h₅, hfd, hopen, hdata⟩ := hmade
  have hwritten : Written io.dev p (ownName io.dev p)
      (Exclusive (R.asLogical overwrite = some true) io.dev) tmppath f tmpfd [] s₅.dev :=
    ⟨h₅, hfd, hopen, hdata⟩
  refine Meets.bind (writeIdentities_meets henv C ts keys hwritten) (fun e io' h => ?_)
    fun x s₆ h => ?_
  · obtain ⟨-, x, hx, -⟩ := h
    cases hx
  obtain ⟨h₆, x', hx, htext⟩ := h
  obtain rfl := Except.ok.inj hx
  cases x with
  | some failure =>
    refine Meets.bind (discardOutput_meets henv h₆ tmpfd) (fun e io' h => by cases h.1)
      fun _ io' h => ?_
    exact resultErr_meets h.2 _ _
  | none =>
    obtain ⟨text, htext, hdata⟩ := htext rfl
    have hcomplete : KeyFileOf C ext created (s₆.dev.disk.data f) := by
      refine ⟨keys, ts, hext keys rfl, hts ts rfl, ?_⟩
      rw [htext, hdata]
      rfl
    have hexcl : Exclusive (R.asLogical overwrite = some true) io.dev →
        decide (R.asLogical overwrite = some true) = false ∧
        ∀ i e, io.dev.calls .link i = .fail e → e = .EEXIST := fun h => h
    refine Meets.bind (commitOutput_meets henv hexcl h₆ hcomplete tmpfd) (fun e io' h => ?_)
      fun x io' h => ?_
    · rcases h with ⟨he, -⟩ | ⟨msg, he, -⟩ <;> cases he
    · rcases h with ⟨he, out, hout, hc⟩ | ⟨msg, he, hn⟩
      · obtain rfl := Except.ok.inj he
        exact resultOk_meets hout hc _
      · obtain rfl := Except.ok.inj he
        exact resultErr_meets hn _ _

end Entry

end Agecrypt
