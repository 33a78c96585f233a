import Agecrypt.Lib.Always
import Agecrypt.Package.Binding
import Agecrypt.Package.Working

/-!
# A file system shared with other processes

Other processes work on the file system in front of each of our calls.
`Spares` is what a run relies on: they leave some names alone, and the files
under these names.  A call of ours finds the file system as they left it,
and `Called` says what it leaves and what it writes down in the log.  The
`_cases` lemmas give for each call that a run makes the files that it leaves.
-/

namespace Agecrypt

namespace Disk

variable {d : Disk} {p q : Path} {f : Nat}

/-- Every name stands for a file that exists. -/
def Sane (d : Disk) : Prop := ∀ p f, d.dir p = some f → f < d.next

/-- The file has this name and no other. -/
structure Sole (d : Disk) (p : Path) (f : Nat) : Prop where
  named : d.dir p = some f
  only : ∀ q, d.dir q = some f → q = p

/-! ## The edits of a directory -/

theorem dir_create_of_ne (h : q ≠ p) : (d.create p).dir q = d.dir q := Function.update_of_ne h _ _

theorem dir_enter_self : (d.enter p f).dir p = some f := Function.update_self ..

theorem dir_enter_of_ne (h : q ≠ p) : (d.enter p f).dir q = d.dir q := Function.update_of_ne h _ _

theorem dir_remove_self : (d.remove p).dir p = none := Function.update_self ..

theorem dir_remove_of_ne (h : q ≠ p) : (d.remove p).dir q = d.dir q := Function.update_of_ne h _ _

theorem Sane.create (h : d.Sane) : (d.create p).Sane := by
  intro q g hq
  by_cases hqp : q = p
  · have hg : (d.create p).dir p = some d.next := Function.update_self ..
    rw [hqp, hg] at hq
    exact Option.some.inj hq ▸ Nat.lt_succ_self d.next
  · rw [dir_create_of_ne hqp] at hq
    exact Nat.lt_succ_of_lt (h q g hq)

theorem Sane.enter (h : d.Sane) (hf : f < d.next) : (d.enter p f).Sane := by
  intro q g hq
  by_cases hqp : q = p
  · rw [hqp, dir_enter_self] at hq
    exact Option.some.inj hq ▸ hf
  · rw [dir_enter_of_ne hqp] at hq
    exact h q g hq

theorem Sane.remove (h : d.Sane) : (d.remove p).Sane := by
  intro q g hq
  by_cases hqp : q = p
  · rw [hqp, dir_remove_self] at hq
    cases hq
  · rw [dir_remove_of_ne hqp] at hq
    exact h q g hq

theorem Sole.create (h : d.Sane) : (d.create p).Sole p d.next := by
  refine ⟨Function.update_self .., fun q hq => ?_⟩
  by_contra hqp
  rw [dir_create_of_ne hqp] at hq
  exact Nat.lt_irrefl _ (h q _ hq)

theorem Sole.ne (h : d.Sole p f) (hq : q ≠ p) : d.dir q ≠ some f := fun he => hq (h.only q he)

/-! ## What another path holds -/

theorem contents_create (h : d.Sane) (hq : q ≠ p) : (d.create p).contents q = d.contents q := by
  rw [contents, contents, dir_create_of_ne hq]
  refine Option.map_congr fun g hg => ?_
  exact Function.update_of_ne (Nat.ne_of_lt (h q g hg)) _ _

theorem contents_put {pos : Nat} {bs : List UInt8} (h : d.dir q ≠ some f) :
    (d.put f pos bs).contents q = d.contents q := by
  refine Option.map_congr fun g hg => ?_
  refine Function.update_of_ne ?_ _ _
  rintro rfl
  exact h hg

theorem contents_enter_self : (d.enter p f).contents p = some (d.data f) := by
  rw [contents, dir_enter_self]
  rfl

theorem contents_enter (h : q ≠ p) : (d.enter p f).contents q = d.contents q := by
  rw [contents, contents, dir_enter_of_ne h]
  rfl

theorem contents_remove (h : q ≠ p) : (d.remove p).contents q = d.contents q := by
  rw [contents, contents, dir_remove_of_ne h]
  rfl

end Disk

/-! ## Other processes -/

/-- Another process leaves the names `mine` alone, what the files under them
hold, and their number of names. -/
structure Spares (mine : Path → Prop) (act : Disk → Disk) : Prop where
  sane : ∀ d, d.Sane → (act d).Sane
  dir : ∀ d p, mine p → (act d).dir p = d.dir p
  data : ∀ d p f, d.Sane → mine p → d.dir p = some f → (act d).data f = d.data f
  names : ∀ d p q f, d.Sane → mine p → d.dir p = some f → (act d).dir q = some f →
    d.dir q = some f

theorem spares_id (mine : Path → Prop) : Spares mine fun d => d :=
  ⟨fun _ h => h, fun _ _ _ => rfl, fun _ _ _ _ _ _ => rfl, fun _ _ _ _ _ _ _ h => h⟩

/-- Another process may make a file under another name. -/
theorem spares_create {mine : Path → Prop} {p : Path} (hp : ¬ mine p) :
    Spares mine (Disk.create p) := by
  have hne : ∀ {q}, mine q → q ≠ p := fun hq he => hp (he ▸ hq)
  refine ⟨fun d h => h.create, fun d q hq => Disk.dir_create_of_ne (hne hq),
    fun d q f hs _ hf => ?_, fun d q q' f hs _ hf hq' => ?_⟩
  · exact Function.update_of_ne (Nat.ne_of_lt (hs q f hf)) _ _
  · by_cases hqp : q' = p
    · have hnew : (d.create p).dir p = some d.next := Function.update_self ..
      rw [hqp, hnew] at hq'
      exact absurd (hs q f hf) (Option.some.inj hq' ▸ Nat.lt_irrefl _)
    · rw [Disk.dir_create_of_ne hqp] at hq'
      exact hq'

theorem Spares.sole {mine : Path → Prop} {act : Disk → Disk} (h : Spares mine act) {d : Disk}
    {p : Path} {f : Nat} (hd : d.Sane) (hp : mine p) (hs : d.Sole p f) : (act d).Sole p f :=
  ⟨(h.dir d p hp).trans hs.named, fun q hq => hs.only q (h.names d p q f hd hp hs.named hq)⟩

namespace Sys

variable {α : Type} {s t u : Sys}

/-- The file system that the next call finds. -/
def found (s : Sys) : Disk := s.others 0 s.disk

/-- The verdicts and the other processes at a later moment. -/
structure Later (s t : Sys) : Prop where
  calls : ∀ c i, ∃ j, t.calls c i = s.calls c j
  others : ∀ i, ∃ j, t.others i = s.others j

theorem Later.refl (s : Sys) : Later s s := ⟨fun _ i => ⟨i, rfl⟩, fun i => ⟨i, rfl⟩⟩

theorem Later.trans (h : Later s t) (h' : Later t u) : Later s u := by
  refine ⟨fun c i => ?_, fun i => ?_⟩
  · obtain ⟨j, hj⟩ := h'.calls c i
    obtain ⟨k, hk⟩ := h.calls c j
    exact ⟨k, hj.trans hk⟩
  · obtain ⟨j, hj⟩ := h'.others i
    obtain ⟨k, hk⟩ := h.others j
    exact ⟨k, hj.trans hk⟩

theorem Later.lets {c : Syscall} (h : Later s t) (hs : s.Lets c) : t.Lets c := by
  intro i e he
  obtain ⟨j, hj⟩ := h.calls c i
  exact hs j e (hj ▸ he)

theorem Later.alone (h : Later s t) (hs : s.Alone) : t.Alone := by
  intro i d
  obtain ⟨j, hj⟩ := h.others i
  rw [hj]
  exact hs j d

theorem later_arrive (s : Sys) (c : Syscall) : Later s (s.arrive c) := by
  refine ⟨fun c' i => ?_, fun i => ⟨i + 1, rfl⟩⟩
  by_cases hc : c' = c
  · subst hc
    have hself : (s.arrive c').calls c' = fun i => s.calls c' (i + 1) := Function.update_self ..
    exact ⟨i + 1, congrFun hself i⟩
  · have hother : (s.arrive c).calls c' = s.calls c' := Function.update_of_ne hc _ _
    exact ⟨i, congrFun hother i⟩

/-! ## One call -/

/-- One call that left the file system as `left`. -/
structure Called (s t : Sys) (left : Disk) : Prop where
  later : Later s t
  disk : t.disk = left
  log : t.log = s.log ++ [(s.found, left)]
  draws : t.draws = s.draws

/-- An effect that moves only the descriptors, `errno` and the files. -/
structure Local (effect : Nat → Sys → Except Errno α × Sys) : Prop where
  log : ∀ count s, (effect count s).2.log = s.log
  draws : ∀ count s, (effect count s).2.draws = s.draws
  later : ∀ count s, Later s (effect count s).2

/-- A call fails, or it does what it is for. -/
theorem syscall_cases (c : Syscall) {effect : Nat → Sys → Except Errno α × Sys}
    (hl : Local effect) (s : Sys) :
    (∃ e, s.calls c 0 = .fail e ∧ (syscall c effect s).1 = none ∧
      (syscall c effect s).2.errno = e ∧ (syscall c effect s).2.fds = s.fds ∧
      Called s (syscall c effect s).2 s.found) ∨
    ∃ count, s.calls c 0 = .ok count ∧
      (syscall c effect s).1 = (effect count (s.arrive c)).1.toOption ∧
      (∀ e, (effect count (s.arrive c)).1 = .error e → (syscall c effect s).2.errno = e) ∧
      (syscall c effect s).2.fds = (effect count (s.arrive c)).2.fds ∧
      Called s (syscall c effect s).2 (effect count (s.arrive c)).2.disk := by
  rw [syscall]
  cases hv : s.calls c 0 with
  | fail e =>
    have hlt := later_arrive s c
    exact .inl ⟨e, rfl, rfl, rfl, rfl, ⟨hlt.calls, hlt.others⟩, rfl, rfl, rfl⟩
  | ok count =>
    refine .inr ⟨count, rfl, ?_⟩
    rw [act]
    have hlog := hl.log count (s.arrive c)
    have hd := hl.draws count (s.arrive c)
    have hlt := (later_arrive s c).trans (hl.later count (s.arrive c))
    rcases he : effect count (s.arrive c) with ⟨e | a, t⟩ <;> rw [he] at hlog hd hlt
    · refine ⟨rfl, fun e' he => Except.error.inj he, rfl, ⟨hlt.calls, hlt.others⟩, rfl, ?_, hd⟩
      exact congrArg (· ++ [((s.arrive c).disk, t.disk)]) hlog
    · refine ⟨rfl, fun e' he => (by cases he), rfl, ⟨hlt.calls, hlt.others⟩, rfl, ?_, hd⟩
      exact congrArg (· ++ [((s.arrive c).disk, t.disk)]) hlog

/-- A call that does not touch the files. -/
theorem called_idle {c : Syscall} {effect : Nat → Sys → Except Errno α × Sys} (hl : Local effect)
    (hdisk : ∀ count s, (effect count s).2.disk = s.disk) (s : Sys) :
    Called s (syscall c effect s).2 s.found := by
  rcases syscall_cases c hl s with ⟨e, -, -, -, -, hc⟩ | ⟨count, -, -, -, -, hc⟩
  · exact hc
  · rw [hdisk] at hc
    exact hc

/-- An effect in cases, none of which moves more than the descriptors,
`errno` and the files. -/
theorem Local.of_cases {effect : Nat → Sys → Except Errno α × Sys}
    (h : ∀ count s, ∃ r fds nextfd disk,
      effect count s = (r, { s with fds := fds, nextfd := nextfd, disk := disk })) :
    Local effect := by
  refine ⟨fun count s => ?_, fun count s => ?_, fun count s => ?_⟩ <;>
    obtain ⟨r, fds, nextfd, disk, he⟩ := h count s <;> rw [he]
  exact ⟨fun _ i => ⟨i, rfl⟩, fun i => ⟨i, rfl⟩⟩

/-- The effect of a call, found in its definition. -/
theorem local_of_eq {c : Syscall} {call : Sys → Option α × Sys}
    {effect : Nat → Sys → Except Errno α × Sys} (_ : call = syscall c effect)
    (h : ∀ count s, ∃ r fds nextfd disk,
      effect count s = (r, { s with fds := fds, nextfd := nextfd, disk := disk })) :
    Local effect := .of_cases h

/-- The descriptors that are open stand in the same files. -/
def SameFiles (s t : Sys) : Prop :=
  ∀ fd file, (∃ pos, s.fds fd = some ⟨file, pos⟩) → ∃ pos, t.fds fd = some ⟨file, pos⟩

/-- A descriptor that moved in its file. -/
theorem SameFiles.move {fd : Int} {file pos pos' : Nat} (h : s.fds fd = some ⟨file, pos⟩)
    (ht : t.fds = Function.update s.fds fd (some ⟨file, pos'⟩)) : SameFiles s t := by
  rintro fd' file' ⟨pos₀, h'⟩
  rw [ht]
  by_cases hfd : fd' = fd
  · rw [hfd, h] at h'
    obtain ⟨rfl, -⟩ := OpenFile.mk.inj (Option.some.inj h')
    exact ⟨pos', by rw [hfd, Function.update_self]⟩
  · exact ⟨pos₀, by rw [Function.update_of_ne hfd, h']⟩

theorem sameFiles_of_eq (h : t.fds = s.fds) : SameFiles s t := by
  rintro fd file ⟨pos, h'⟩
  exact ⟨pos, by rw [h, h']⟩

theorem called_read (fd : Int) (n : Nat) (s : Sys) :
    Called s (s.read fd n).2 s.found ∧ SameFiles s (s.read fd n).2 := by
  have hl := local_of_eq (rfl : Sys.read fd n = syscall .read _) fun count s => by
    split <;> exact ⟨_, _, _, _, rfl⟩
  rcases syscall_cases .read hl s with ⟨e, -, -, -, hfds, hc⟩ | ⟨count, -, -, -, hfds, hc⟩
  · exact ⟨hc, sameFiles_of_eq hfds⟩
  · cases hf : s.fds fd with
    | none =>
      rw [show (s.arrive .read).fds fd = none from hf] at hfds hc
      exact ⟨hc, sameFiles_of_eq hfds⟩
    | some f =>
      rw [show (s.arrive .read).fds fd = some f from hf] at hfds hc
      exact ⟨hc, .move hf hfds⟩

/-- A `write` leaves the files alone, or puts some of its bytes into the file
at the position of the descriptor. -/
theorem write_cases (fd : Int) (bs : List UInt8) (s : Sys) :
    ((s.write fd bs).1 = none ∧ Called s (s.write fd bs).2 s.found ∧
      SameFiles s (s.write fd bs).2) ∨
    ∃ file pos k, (s.write fd bs).1 = some k ∧ k ≤ bs.length ∧ s.fds fd = some ⟨file, pos⟩ ∧
      Called s (s.write fd bs).2 (s.found.put file pos (bs.take k)) ∧
      (s.write fd bs).2.fds = Function.update s.fds fd (some ⟨file, pos + k⟩) := by
  have hl := local_of_eq (rfl : Sys.write fd bs = syscall .write _) fun count s => by
    split <;> exact ⟨_, _, _, _, rfl⟩
  rcases syscall_cases .write hl s with ⟨e, -, hr, -, hfds, hc⟩ | ⟨count, -, hr, -, hfds, hc⟩
  · exact .inl ⟨hr, hc, sameFiles_of_eq hfds⟩
  · cases hf : s.fds fd with
    | none =>
      rw [show (s.arrive .write).fds fd = none from hf] at hr hfds hc
      exact .inl ⟨hr, hc, sameFiles_of_eq hfds⟩
    | some f =>
      rw [show (s.arrive .write).fds fd = some f from hf] at hr hfds hc
      exact .inr ⟨f.file, f.pos, _, hr, Nat.min_le_left .., rfl, hc, hfds⟩

theorem called_openRead (p : Path) (s : Sys) : Called s (s.openRead p).2 s.found := by
  refine called_idle (.of_cases fun count s => ?_) (fun count s => ?_) s
  · split <;> exact ⟨_, _, _, _, rfl⟩
  · dsimp only
    split <;> rfl

theorem called_close (fd : Int) (s : Sys) : Called s (s.close fd).2 s.found := by
  have hl : Local fun _ (s : Sys) =>
      (if (s.fds fd).isSome then (.ok () : Except Errno Unit) else .error .EBADF, s) :=
    .of_cases fun _ _ => ⟨_, _, _, _, rfl⟩
  have hc := called_idle (c := .close) hl (fun _ _ => rfl) s
  exact ⟨⟨hc.later.calls, hc.later.others⟩, hc.disk, hc.log, hc.draws⟩

theorem called_fsync (fd : Int) (s : Sys) : Called s (s.fsync fd).2 s.found :=
  called_idle (.of_cases fun _ _ => ⟨_, _, _, _, rfl⟩) (fun _ _ => rfl) s

theorem called_access (p : Path) (s : Sys) : Called s (s.access p).2 s.found :=
  called_idle (.of_cases fun _ _ => ⟨_, _, _, _, rfl⟩) (fun _ _ => rfl) s

/-- An exclusive `open` fails, or it makes a new file under a name that was
free. -/
theorem openExcl_cases (p : Path) (s : Sys) :
    ((s.openExcl p).1 = none ∧ Called s (s.openExcl p).2 s.found) ∨
    ∃ fd, 0 ≤ fd ∧ (s.openExcl p).1 = some fd ∧ s.found.dir p = none ∧
      Called s (s.openExcl p).2 (s.found.create p) ∧
      (s.openExcl p).2.fds fd = some ⟨s.found.next, 0⟩ := by
  have hl := local_of_eq (rfl : Sys.openExcl p = syscall .open _) fun count s => by
    split <;> exact ⟨_, _, _, _, rfl⟩
  rcases syscall_cases .open hl s with ⟨e, -, hr, -, -, hc⟩ | ⟨count, -, hr, -, hfds, hc⟩
  · exact .inl ⟨hr, hc⟩
  · cases hp : s.found.dir p with
    | some g =>
      rw [show (s.arrive .open).disk.dir p = some g from hp] at hr hc
      exact .inl ⟨hr, hc⟩
    | none =>
      rw [show (s.arrive .open).disk.dir p = none from hp] at hr hfds hc
      refine .inr ⟨_, Int.natCast_nonneg _, hr, rfl, hc, ?_⟩
      exact (congrFun hfds _).trans (Function.update_self ..)

/-- A `link` of a file under its one name. -/
theorem link_cases {old : Path} {f : Nat} (new : Path) {s : Sys} (h : s.found.dir old = some f) :
    ((s.link old new).1 = none ∧ Called s (s.link old new).2 s.found ∧
      (s.calls .link 0 = .fail (s.link old new).2.errno ∨ (s.link old new).2.errno = .EEXIST)) ∨
    ((s.link old new).1 = some () ∧ s.found.dir new = none ∧
      Called s (s.link old new).2 (s.found.enter new f)) := by
  have hl := local_of_eq (rfl : Sys.link old new = syscall .link _) fun count s => by
    split
    · exact ⟨_, _, _, _, rfl⟩
    · split <;> exact ⟨_, _, _, _, rfl⟩
  rcases syscall_cases .link hl s with ⟨e, hv, hr, he, -, hc⟩ | ⟨count, -, hr, he, -, hc⟩
  · exact .inl ⟨hr, hc, .inl (by rw [hv, ← he]; rfl)⟩
  · rw [show (s.arrive .link).disk.dir old = some f from h] at hr he hc
    cases hnew : s.found.dir new with
    | some g =>
      rw [show (s.arrive .link).disk.dir new = some g from hnew] at hr he hc
      exact .inl ⟨hr, hc, .inr (he _ rfl)⟩
    | none =>
      rw [show (s.arrive .link).disk.dir new = none from hnew] at hr he hc
      exact .inr ⟨hr, rfl, hc⟩

/-- A `rename` of a file that the new name does not stand for. -/
theorem rename_cases {old new : Path} {f : Nat} {s : Sys} (h : s.found.dir old = some f)
    (hnew : s.found.dir new ≠ some f) :
    ((s.rename old new).1 = none ∧ Called s (s.rename old new).2 s.found) ∨
    ((s.rename old new).1 = some () ∧
      Called s (s.rename old new).2 ((s.found.enter new f).remove old)) := by
  have hl := local_of_eq (rfl : Sys.rename old new = syscall .rename _) fun count s => by
    split
    · exact ⟨_, _, _, _, rfl⟩
    · split <;> exact ⟨_, _, _, _, rfl⟩
  rcases syscall_cases .rename hl s with ⟨e, -, hr, -, -, hc⟩ | ⟨count, -, hr, -, -, hc⟩
  · exact .inl ⟨hr, hc⟩
  · rw [show (s.arrive .rename).disk.dir old = some f from h] at hr hc
    dsimp only at hr hc
    rw [if_neg (show ¬ (s.arrive .rename).disk.dir new = some f from hnew)] at hr hc
    exact .inr ⟨hr, hc⟩

/-- An `unlink` leaves the files alone, or removes the name; it removes it
when it does not fail. -/
theorem unlink_cases (p : Path) (s : Sys) :
    (Called s (s.unlink p).2 s.found ∧ (s.Lets .unlink → s.found.dir p = none)) ∨
    Called s (s.unlink p).2 (s.found.remove p) := by
  have hl : Local fun _ (s : Sys) =>
      if (s.disk.dir p).isSome then
        ((.ok () : Except Errno Unit), { s with disk := s.disk.remove p })
      else (.error .ENOENT, s) := by
    refine .of_cases fun count s => ?_
    split <;> exact ⟨_, _, _, _, rfl⟩
  rcases syscall_cases .unlink hl s with ⟨e, hv, -, -, -, hc⟩ | ⟨count, -, -, -, -, hc⟩
  · exact .inl ⟨hc, fun hlets => absurd hv (hlets 0 e)⟩
  · cases hp : s.found.dir p with
    | none =>
      rw [show (s.arrive .unlink).disk.dir p = none from hp] at hc
      exact .inl ⟨hc, fun _ => rfl⟩
    | some g =>
      rw [show (s.arrive .unlink).disk.dir p = some g from hp] at hc
      exact .inr hc

end Sys

end Agecrypt
