import Agecrypt.Package.Keys
import Agecrypt.Package.Outputs

/-!
# What a user can rely on about output files

`FileJob` is a call that writes a file.  With nobody else on the file system
its destination holds at every moment what it held before or the complete
output.  Whatever other processes do, a job that must not overwrite never
changes a destination that exists, and of several such jobs at most one
succeeds.
-/

namespace Agecrypt

open ProgE (Runs Meets Always)

/-! ## The calls that write a file -/

/-- A call that writes a file. -/
inductive FileJob where
  | transform (m : Memory) (inp : Path) (isarmor recording overwrite : Bool) (fn : Age Unit)
      (failClass : String)
  | identity (C : Crypto) (R : RApi) (ext path created overwrite : Sexp)

namespace FileJob

/-- Its code, for the destination `outp`. -/
def code (outp : Path) : FileJob → Pkg Result
  | transform m inp isarmor recording overwrite fn failClass =>
    runFileTransform m inp outp isarmor recording overwrite fn failClass
  | identity C R ext path created overwrite => ageCIdentityWrite C R ext path created overwrite

def overwrites : FileJob → Bool
  | transform _ _ _ _ overwrite _ _ => overwrite
  | identity _ R _ _ _ overwrite => R.asLogical overwrite = some true

/-- Where it writes to. -/
def To (outp : Path) : FileJob → Prop
  | transform _ _ _ _ _ _ _ => True
  | identity _ _ _ path _ _ => ∀ p, sexpText path = some p → p = outp

/-- What it is to put in place. -/
def Output (outp : Path) (io : Io Sys) : FileJob → List UInt8 → Prop
  | transform m inp isarmor recording _ fn _ => Transformed m inp outp isarmor recording fn io
  | identity C _ ext _ created _ => KeyFileOf C ext created

theorem meets (job : FileJob) {outp : Path} (hto : job.To outp) {io : Io Sys}
    (hsane : io.dev.disk.Sane) (henv : Undisturbed io.dev outp) :
    Meets pkgHandler (Moment io.dev outp (ownName io.dev outp) (Exclusive job.overwrites io.dev)
        (job.Output outp io)) (job.code outp) io
      fun r io' => ∃ c, RunEnd io.dev outp (ownName io.dev outp) (Exclusive job.overwrites io.dev)
        (job.Output outp io) r c io'.dev := by
  cases job with
  | transform m inp isarmor recording overwrite fn failClass =>
    exact runFileTransform_meets m inp outp isarmor recording overwrite fn failClass io hsane henv
  | identity C R ext path created overwrite =>
    exact ageCIdentityWrite_meets C R ext path created overwrite io hto hsane henv

end FileJob

/-! ## Nobody else on the file system -/

/-- The destination holds what it held before or the complete output, and no
other file has changed, the temporary one apart. -/
def Whole (s₀ : Sys) (outp : Path) (complete : List UInt8 → Prop) (s : Sys) : Prop :=
  (s.disk.contents outp = s₀.disk.contents outp ∨
      ∃ out, complete out ∧ s.disk.contents outp = some out) ∧
    ∀ p, p ≠ outp → ¬ ownName s₀ outp p → s.disk.contents p = s₀.disk.contents p

theorem Moment.whole {s₀ : Sys} {outp : Path} {safe : Prop} {complete : List UInt8 → Prop}
    {io : Io Sys} (h : Moment s₀ outp (ownName s₀ outp) safe complete io) (ha : s₀.Alone) :
    Whole s₀ outp complete io.dev := by
  obtain ⟨c, htrack, hcomplete⟩ := h
  refine ⟨?_, htrack.elsewhere ha⟩
  have hholds := htrack.holds ha
  cases c with
  | none => exact .inl hholds
  | some out => exact .inr ⟨out, hcomplete out rfl, hholds⟩

/-- A file is written whole or not at all. -/
structure AllOrNothing (job : FileJob) (outp : Path) (io : Io Sys) : Prop where
  moments : Always pkgHandler (fun t => Whole io.dev outp (job.Output outp io) t.dev)
    (job.code outp) io
  refused : ∀ cls msg io', Runs pkgHandler (job.code outp) io (.ok (.err cls msg)) io' →
    io'.dev.disk.contents outp = io.dev.disk.contents outp
  written : ∀ payload io', Runs pkgHandler (job.code outp) io (.ok (.ok payload)) io' →
    ∃ out, job.Output outp io out ∧ io'.dev.disk.contents outp = some out
  /-- No temporary file is left behind. -/
  cleaned : ∀ r io', Runs pkgHandler (job.code outp) io r io' →
    ∀ p, ownName io.dev outp p → io'.dev.disk.dir p = io.dev.disk.dir p

/-- Whatever calls fail, `unlink` apart. -/
theorem file_outputs_all_or_nothing (job : FileJob) (outp : Path) (hto : job.To outp) (io : Io Sys)
    (hsane : io.dev.disk.Sane) (halone : io.dev.Alone) (hunlink : io.dev.Lets .unlink) :
    AllOrNothing job outp io := by
  have henv : Undisturbed io.dev outp := by
    intro i
    rw [show io.dev.others i = fun d => d from funext (halone i)]
    exact spares_id _
  have hmeets := job.meets hto hsane henv
  refine ⟨?_, fun cls msg io' hr => ?_, fun payload io' hr => ?_, fun r io' hr => ?_⟩
  · exact (hmeets.weaken fun t ht => ht.whole halone).always
  · obtain ⟨c, hend⟩ := hmeets.post _ _ hr
    rw [hend.holds halone, hend.failed cls msg rfl]
    rfl
  · obtain ⟨c, hend⟩ := hmeets.post _ _ hr
    cases c with
    | none => exact absurd rfl (hend.succeeded payload rfl)
    | some out => exact ⟨out, hend.complete out rfl, hend.holds halone⟩
  · obtain ⟨c, hend⟩ := hmeets.post _ _ hr
    exact hend.names hunlink

theorem Disk.sane_ofFiles (files : List (Path × List UInt8)) : (Disk.ofFiles files).Sane := by
  intro p f hp
  exact (List.findIdx?_eq_some_iff_findIdx_eq.mp hp).1

/-- The encryption of a file of three bytes. -/
def sampleJob : FileJob :=
  .transform Memory.zero [97] false false false
    (Age.rw (ageEncipher Crypto.sample [sevens])) "encrypt"

/-- It ends with success, and the output is in place. -/
theorem file_outputs_all_or_nothing_sample :
    ∃ io', Runs pkgHandler (sampleJob.code [98]) (Io.fresh [([97], [1, 2, 3])])
        (.ok (.ok (.lgl [some true]))) io' ∧
      ∃ out, sampleJob.Output [98] (Io.fresh [([97], [1, 2, 3])]) out ∧
        io'.dev.disk.contents [98] = some out := by
  obtain ⟨io', hr⟩ : ∃ io', Runs pkgHandler (sampleJob.code [98]) (Io.fresh [([97], [1, 2, 3])])
      (.ok (.ok (.lgl [some true]))) io' := ProgE.exists_runs 5000 (by decide +kernel)
  have hall := file_outputs_all_or_nothing sampleJob [98] trivial (Io.fresh [([97], [1, 2, 3])])
    (Disk.sane_ofFiles _) (fun _ _ => rfl) (fun _ _ h => Verdict.noConfusion h)
  exact ⟨io', hr, hall.written _ io' hr⟩

/-! ## Other processes at work -/

section Progress

variable {outp : Path} {mine : Path → Prop} {safe : Prop} {c : Option (List UInt8)}
  {steps : List (Disk × Disk)}

theorem Progress.elsewhere (h : Progress outp mine safe c steps) :
    ∀ e ∈ steps, ∀ p, p ≠ outp → ¬ mine p → e.2.contents p = e.1.contents p := by
  induction h with
  | start => exact fun e he => absurd he List.not_mem_nil
  | quiet _ hq ih =>
    intro e he p hne hm
    rcases List.mem_append.mp he with he | he
    · exact ih e he p hne hm
    · rw [List.mem_singleton.mp he]
      exact hq p hm
  | place _ _ hq _ ih =>
    intro e he p hne hm
    rcases List.mem_append.mp he with he | he
    · exact ih e he p hne hm
    · rw [List.mem_singleton.mp he]
      exact hq p hne hm

/-- Without an output in place the destination has not changed. -/
theorem Progress.unchanged (h : Progress outp mine safe c steps) (hout : ¬ mine outp)
    (hc : c = none) : ∀ e ∈ steps, e.2.contents outp = e.1.contents outp := by
  induction h with
  | start => exact fun e he => absurd he List.not_mem_nil
  | quiet _ hq ih =>
    intro e he
    rcases List.mem_append.mp he with he | he
    · exact ih hc e he
    · rw [List.mem_singleton.mp he]
      exact hq outp hout
  | place => cases hc

/-- A safe run leaves a destination alone that exists. -/
theorem Progress.spares (h : Progress outp mine safe c steps) (hout : ¬ mine outp) (hsafe : safe) :
    ∀ e ∈ steps, e.1.contents outp ≠ none → e.2.contents outp = e.1.contents outp := by
  induction h with
  | start => exact fun e he => absurd he List.not_mem_nil
  | quiet _ hq ih =>
    intro e he hne
    rcases List.mem_append.mp he with he | he
    · exact ih e he hne
    · rw [List.mem_singleton.mp he]
      exact hq outp hout
  | place h' _ _ hfree _ =>
    intro e he hne
    rcases List.mem_append.mp he with he | he
    · exact h'.unchanged hout rfl e he
    · rw [List.mem_singleton.mp he] at hne
      exact absurd (Option.map_eq_none_iff.mpr (hfree hsafe)) hne

/-- The call that put the output in place. -/
theorem Progress.placed (h : Progress outp mine safe c steps) {out : List UInt8}
    (hc : c = some out) :
    ∃ e ∈ steps, (safe → e.1.dir outp = none) ∧ e.2.contents outp = some out := by
  induction h with
  | start => cases hc
  | quiet _ _ ih =>
    obtain ⟨e, he, hp⟩ := ih hc
    exact ⟨e, List.mem_append_left _ he, hp⟩
  | place _ hd _ hfree _ =>
    obtain rfl := Option.some.inj hc
    exact ⟨_, List.mem_append_right _ (List.mem_singleton_self _), hfree, hd⟩

end Progress

/-- A destination that exists is never changed: not by any call, however far
the run gets.  An output is put in place where there was none. -/
structure NoClobber (job : FileJob) (outp : Path) (io : Io Sys) : Prop where
  moments : Always pkgHandler (fun t => ∃ steps, t.dev.log = io.dev.log ++ steps ∧
      (∀ e ∈ steps, e.1.contents outp ≠ none → e.2.contents outp = e.1.contents outp) ∧
      ∀ e ∈ steps, ∀ p, p ≠ outp → ¬ ownName io.dev outp p → e.2.contents p = e.1.contents p)
    (job.code outp) io
  refused : ∀ cls msg io', Runs pkgHandler (job.code outp) io (.ok (.err cls msg)) io' →
    ∃ steps, io'.dev.log = io.dev.log ++ steps ∧
      ∀ e ∈ steps, e.2.contents outp = e.1.contents outp
  written : ∀ payload io', Runs pkgHandler (job.code outp) io (.ok (.ok payload)) io' →
    ∃ steps, io'.dev.log = io.dev.log ++ steps ∧
      ∃ e ∈ steps, ∃ out,
        e.1.dir outp = none ∧ job.Output outp io out ∧ e.2.contents outp = some out

/-- The other processes may do anything to the destination, and to every
file but the temporary one. -/
theorem exclusive_job_no_clobber (job : FileJob) (outp : Path) (hto : job.To outp) (io : Io Sys)
    (hsane : io.dev.disk.Sane) (henv : Undisturbed io.dev outp)
    (hexcl : Exclusive job.overwrites io.dev) : NoClobber job outp io := by
  have hmeets := job.meets hto hsane henv
  have hout : ¬ ownName io.dev outp outp := henv.reliance.not_mine
  refine ⟨?_, fun cls msg io' hr => ?_, fun payload io' hr => ?_⟩
  · refine (hmeets.weaken fun t ht => ?_).always
    obtain ⟨c, htrack, -⟩ := ht
    obtain ⟨steps, hlog, hp⟩ := htrack.progress
    exact ⟨steps, hlog, hp.spares hout hexcl, hp.elsewhere⟩
  · obtain ⟨c, hend⟩ := hmeets.post _ _ hr
    obtain ⟨steps, hlog, hp⟩ := hend.progress
    exact ⟨steps, hlog, hp.unchanged hout (hend.failed cls msg rfl)⟩
  · obtain ⟨c, hend⟩ := hmeets.post _ _ hr
    obtain ⟨steps, hlog, hp⟩ := hend.progress
    cases c with
    | none => exact absurd rfl (hend.succeeded payload rfl)
    | some out =>
      obtain ⟨e, he, hfree, hd⟩ := hp.placed rfl
      exact ⟨steps, hlog, e, he, out, hfree hexcl, hend.complete out rfl, hd⟩

/-- Another process makes the destination in front of call number `k`. -/
def rivalled (k : Nat) : Io Sys :=
  { Io.fresh [([97], [1, 2, 3])] with
    dev := { Sys.steady [([97], [1, 2, 3])] 99 with
      others := fun i d => if i = k then d.create [98] else d } }

/-- It does so in front of the `link`, and keeps its file. -/
theorem exclusive_job_no_clobber_rival :
    ∃ io', Runs pkgHandler (sampleJob.code [98]) (rivalled 7)
        (.ok (.err "io" "output already exists")) io' ∧
      ∃ steps, io'.dev.log = [] ++ steps ∧
        ∀ e ∈ steps, e.2.contents [98] = e.1.contents [98] := by
  obtain ⟨io', hr⟩ : ∃ io', Runs pkgHandler (sampleJob.code [98]) (rivalled 7)
      (.ok (.err "io" "output already exists")) io' := ProgE.exists_runs 5000 (by decide +kernel)
  have henv : Undisturbed (rivalled 7).dev [98] := by
    intro i
    have hno : ¬ ownName (rivalled 7).dev [98] [98] := by
      rintro ⟨-, -, r, -, he⟩
      exact tempName_ne [98] r he.symm
    by_cases hi : i = 7
    · rw [show (rivalled 7).dev.others i = Disk.create [98] from funext fun d => if_pos hi]
      exact spares_create hno
    · rw [show (rivalled 7).dev.others i = fun d => d from funext fun d => if_neg hi]
      exact spares_id _
  have hno := exclusive_job_no_clobber sampleJob [98] trivial (rivalled 7)
    (Disk.sane_ofFiles _) henv ⟨rfl, fun _ _ h => Verdict.noConfusion h⟩
  exact ⟨io', hr, hno.refused _ _ io' hr⟩

/-! ## Several jobs towards one destination -/

/-- The calls of several processes in their order, each with the process that
made it, what it found and what it left.  Nobody removes the destination. -/
def Lasting {ι : Type} (outp : Path) (history : List (ι × Disk × Disk)) : Prop :=
  history.Pairwise fun x y => x.2.2.dir outp ≠ none → y.2.1.dir outp ≠ none

instance {ι : Type} (outp : Path) (history : List (ι × Disk × Disk)) :
    Decidable (Lasting outp history) := inferInstanceAs (Decidable (List.Pairwise _ _))

/-- Two calls of different processes that put something in place cannot both
have found no destination. -/
theorem Lasting.not_both {ι : Type} {outp : Path} {history : List (ι × Disk × Disk)}
    (h : Lasting outp history) {i j : ι} {d e : Disk × Disk} (hi : (i, d) ∈ history)
    (hj : (j, e) ∈ history) (hne : i ≠ j) (hd : d.2.dir outp ≠ none) (he : e.2.dir outp ≠ none)
    (hd₀ : d.1.dir outp = none) (he₀ : e.1.dir outp = none) : False := by
  obtain ⟨a, ha, hia⟩ := List.getElem_of_mem hi
  obtain ⟨b, hb, hjb⟩ := List.getElem_of_mem hj
  have hpair := List.pairwise_iff_getElem.mp h
  rcases Nat.lt_trichotomy a b with hab | rfl | hab
  · have := hpair a b ha hb hab
    rw [hia, hjb] at this
    exact this hd he₀
  · rw [hia] at hjb
    exact hne (Prod.mk.inj hjb).1
  · have := hpair b a hb ha hab
    rw [hia, hjb] at this
    exact this he hd₀

/-- Of the jobs that must not overwrite and have one destination, at most
one reports success, in every interleaving. -/
theorem one_exclusive_job_succeeds {ι : Type} [DecidableEq ι] (outp : Path)
    (history : List (ι × Disk × Disk)) (hlast : Lasting outp history) (job : ι → FileJob)
    (start fin : ι → Io Sys) (answer : ι → Except String Result)
    (hto : ∀ i, (job i).To outp) (hsane : ∀ i, (start i).dev.disk.Sane)
    (henv : ∀ i, Undisturbed (start i).dev outp)
    (hexcl : ∀ i, Exclusive (job i).overwrites (start i).dev)
    (hruns : ∀ i, Runs pkgHandler ((job i).code outp) (start i) (answer i) (fin i))
    (hlog : ∀ i, (fin i).dev.log =
      (start i).dev.log ++ (history.filter fun x => x.1 = i).map Prod.snd)
    (i j : ι) (p q : Sexp) (hi : answer i = .ok (.ok p)) (hj : answer j = .ok (.ok q)) : i = j := by
  have hplace : ∀ k payload, answer k = .ok (.ok payload) → ∃ e : Disk × Disk, (k, e) ∈ history ∧
      e.1.dir outp = none ∧ e.2.dir outp ≠ none := by
    intro k payload hk
    have hno := exclusive_job_no_clobber (job k) outp (hto k) (start k) (hsane k) (henv k) (hexcl k)
    obtain ⟨steps, hsteps, e, he, out, hfree, -, hd⟩ := hno.written payload (fin k) (hk ▸ hruns k)
    rw [hlog k] at hsteps
    rw [← List.append_cancel_left hsteps] at he
    obtain ⟨⟨k', e'⟩, hmem, rfl⟩ := List.mem_map.mp he
    obtain ⟨hin, hk'⟩ := List.mem_filter.mp hmem
    obtain rfl : k' = k := of_decide_eq_true hk'
    refine ⟨e', hin, hfree, fun hnone => ?_⟩
    rw [Disk.contents, hnone] at hd
    cases hd
  obtain ⟨d, hd, hd₀, hd₁⟩ := hplace i p hi
  obtain ⟨e, he, he₀, he₁⟩ := hplace j q hj
  by_contra hne
  exact hlast.not_both hd he hne hd₁ he₁ hd₀ he₀

/-- The same job once more, in a process that starts where the first has
ended. -/
def sampleAgain (io : Io Sys) : Io Sys :=
  { Io.fresh [] with dev := { Sys.steady [] 99 with disk := io.dev.disk } }

/-- The answers of the two processes. -/
def sampleAnswer : Bool → Except String Result
  | true => .ok (.ok (.lgl [some true]))
  | false => .ok (.err "io" "output already exists")

/-- The calls of the first process and then those of the second. -/
def sampleHistory (io₁ io₂ : Io Sys) : List (Bool × Disk × Disk) :=
  io₁.dev.log.map (fun e => (true, e)) ++ io₂.dev.log.map (fun e => (false, e))

theorem filter_sampleHistory (io₁ io₂ : Io Sys) (b : Bool) :
    ((sampleHistory io₁ io₂).filter fun x => x.1 = b).map Prod.snd =
      cond b io₁.dev.log io₂.dev.log := by
  cases b <;> simp [sampleHistory, List.filter_map, Function.comp_def]

/-- Only the first of them succeeds. -/
theorem one_exclusive_job_succeeds_two :
    ∃ io₁ io₂, Runs pkgHandler (sampleJob.code [98]) (Io.fresh [([97], [1, 2, 3])])
        (sampleAnswer true) io₁ ∧
      Runs pkgHandler (sampleJob.code [98]) (sampleAgain io₁) (sampleAnswer false) io₂ ∧
      ∀ i j p q, sampleAnswer i = .ok (.ok p) → sampleAnswer j = .ok (.ok q) → i = j := by
  obtain ⟨io₁, hr₁, h₂⟩ : ∃ io₁, Runs pkgHandler (sampleJob.code [98])
      (Io.fresh [([97], [1, 2, 3])]) (sampleAnswer true) io₁ ∧
      ((ProgE.exec pkgHandler 5000 (sampleJob.code [98]) (sampleAgain io₁)).map fun x =>
        (x.1, decide (Lasting [98] (sampleHistory io₁ x.2)))) = some (sampleAnswer false, true) :=
    ProgE.exists_runs_at 5000 (by decide +kernel)
  obtain ⟨io₂, hr₂, hlast⟩ : ∃ io₂, Runs pkgHandler (sampleJob.code [98]) (sampleAgain io₁)
      (sampleAnswer false) io₂ ∧ decide (Lasting [98] (sampleHistory io₁ io₂)) = true :=
    ProgE.exists_runs_at 5000 h₂
  have henv : ∀ s : Sys, (∀ i d, s.others i d = d) → Undisturbed s [98] := by
    intro s hs i
    rw [show s.others i = fun d => d from funext (hs i)]
    exact spares_id _
  have hto : sampleJob.To [98] := trivial
  have hsane : (Io.fresh [([97], [1, 2, 3])]).dev.disk.Sane := Disk.sane_ofFiles _
  obtain ⟨c, hend⟩ := (sampleJob.meets hto hsane (henv _ fun _ _ => rfl)).post _ _ hr₁
  refine ⟨io₁, io₂, hr₁, hr₂, ?_⟩
  refine one_exclusive_job_succeeds [98] (sampleHistory io₁ io₂) (of_decide_eq_true hlast)
    (fun _ => sampleJob) (fun b => cond b (Io.fresh [([97], [1, 2, 3])]) (sampleAgain io₁))
    (fun b => cond b io₁ io₂) sampleAnswer (fun _ => hto) ?_ ?_ ?_ ?_ ?_
  · intro b
    cases b
    · exact hend.sane
    · exact hsane
  · intro b
    cases b <;> exact henv _ fun _ _ => rfl
  · intro b
    cases b <;> exact ⟨rfl, fun _ _ h => Verdict.noConfusion h⟩
  · intro b
    cases b
    · exact hr₂
    · exact hr₁
  · intro b
    rw [filter_sampleHistory]
    cases b <;> rfl

end Agecrypt
