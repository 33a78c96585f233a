import Agecrypt.Lib.Runs
import Agecrypt.Package.Ops

/-!
# A system on which no call fails

What the calls do when the system lets them, and when no other process
touches the file system.  Reads may still be short.
-/

namespace Agecrypt

namespace Sys

/-- No other process works on the file system. -/
def Alone (s : Sys) : Prop := ∀ i d, s.others i d = d

/-- No call of the kind fails. -/
def Lets (s : Sys) (c : Syscall) : Prop := ∀ i e, s.calls c i ≠ .fail e

/-- Files can be opened and read, and there is memory. -/
structure Working (s : Sys) : Prop where
  alone : s.Alone
  opens : s.Lets .open
  reads : s.Lets .read
  allocs : ∀ i n, s.allocs i n = true
  rallocs : ∀ i, s.rallocs i = true

variable {α : Type} {s t u : Sys}

theorem Lets.arrive {c : Syscall} (h : s.Lets c) (c' : Syscall) : (s.arrive c').Lets c := by
  intro i e
  by_cases hc : c = c'
  · subst hc
    simp only [Sys.arrive, Function.update_self]
    exact h (i + 1) e
  · simp only [Sys.arrive, Function.update_of_ne hc]
    exact h i e

theorem Lets.verdict {c : Syscall} (h : s.Lets c) : ∃ count, s.calls c 0 = .ok count := by
  rcases hv : s.calls c 0 with e | count
  · exact absurd hv (h 0 e)
  · exact ⟨count, rfl⟩

/-- Steps that leave the file system alone and keep the system working. -/
structure Still (s t : Sys) : Prop where
  working : t.Working
  disk : t.disk = s.disk

theorem Still.trans (h : Still s t) (h' : Still t u) : Still s u :=
  ⟨h'.working, h'.disk.trans h.disk⟩

namespace Working

theorem refl (h : s.Working) : Still s s := ⟨h, rfl⟩

theorem arrive (h : s.Working) (c : Syscall) : Still s (s.arrive c) where
  working := ⟨fun i d => h.alone (i + 1) d, h.opens.arrive c, h.reads.arrive c, h.allocs, h.rallocs⟩
  disk := h.alone 0 s.disk

/-- A file that exists is opened at its beginning. -/
theorem openRead (h : s.Working) {p : Path} {file : Nat} (hp : s.disk.dir p = some file) :
    ∃ fd t, s.openRead p = (some fd, t) ∧ Still s t ∧ t.fds fd = some ⟨file, 0⟩ := by
  obtain ⟨count, hv⟩ := h.opens.verdict
  obtain ⟨hw, hd⟩ := h.arrive .open
  rw [Sys.openRead, syscall, hv, act, hd, hp]
  refine ⟨_, _, rfl, ⟨⟨hw.alone, hw.opens, hw.reads, hw.allocs, hw.rallocs⟩, hd⟩, ?_⟩
  exact Function.update_self ..

theorem openRead_missing (h : s.Working) {p : Path} (hp : s.disk.dir p = none) :
    (s.openRead p).1 = none ∧ Still s (s.openRead p).2 := by
  obtain ⟨count, hv⟩ := h.opens.verdict
  obtain ⟨hw, hd⟩ := h.arrive .open
  rw [Sys.openRead, syscall, hv, act, hd, hp]
  exact ⟨rfl, ⟨hw.alone, hw.opens, hw.reads, hw.allocs, hw.rallocs⟩, hd⟩

/-- A read delivers bytes until the file ends. -/
theorem read (h : s.Working) {fd : Int} {file pos n : Nat} (hfd : s.fds fd = some ⟨file, pos⟩)
    (hn : 0 < n) : ∃ k t, 0 < k ∧ k ≤ n ∧
      s.read fd n = (some (((s.disk.data file).drop pos).take k), t) ∧ Still s t ∧
      t.fds fd = some ⟨file, pos + (((s.disk.data file).drop pos).take k).length⟩ := by
  obtain ⟨count, hv⟩ := h.reads.verdict
  obtain ⟨hw, hd⟩ := h.arrive .read
  have hfd' : (s.arrive .read).fds fd = some ⟨file, pos⟩ := hfd
  rw [Sys.read, syscall, hv, act, hfd', hd]
  refine ⟨min n (count + 1), _, by omega, Nat.min_le_left .., rfl,
    ⟨⟨hw.alone, hw.opens, hw.reads, hw.allocs, hw.rallocs⟩, rfl⟩, ?_⟩
  exact Function.update_self ..

theorem close (h : s.Working) (fd : Int) : Still s (s.close fd).2 := by
  obtain ⟨hw, hd⟩ := h.arrive .close
  rw [Sys.close, syscall]
  dsimp only
  rcases s.calls .close 0 with e | count
  · exact ⟨⟨hw.alone, hw.opens, hw.reads, hw.allocs, hw.rallocs⟩, hd⟩
  · rw [act]
    split <;> exact ⟨⟨hw.alone, hw.opens, hw.reads, hw.allocs, hw.rallocs⟩, hd⟩

theorem malloc (h : s.Working) (n : Nat) :
    (s.malloc n).1 = true ∧ Still s (s.malloc n).2 := by
  rw [Sys.malloc, if_pos (h.allocs 0 n)]
  exact ⟨rfl, ⟨h.alone, h.opens, h.reads, fun i => h.allocs (i + 1), h.rallocs⟩, rfl⟩

theorem ralloc (h : s.Working) : Still s { s with rallocs := fun i => s.rallocs (i + 1) } :=
  ⟨⟨h.alone, h.opens, h.reads, h.allocs, fun i => h.rallocs (i + 1)⟩, rfl⟩

end Working

theorem working_steady (files : List (Path × List UInt8)) (count : Nat) :
    (Sys.steady files count).Working where
  alone := fun _ _ => rfl
  opens := fun _ _ h => Verdict.noConfusion h
  reads := fun _ _ h => Verdict.noConfusion h
  allocs := fun _ _ => rfl
  rallocs := fun _ => rfl

end Sys

end Agecrypt
