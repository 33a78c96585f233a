/-!
# The first hit of a search

A search goes through a list.  Each try hits, misses or ends the search with
an error.  `FirstHit g xs b` says that the first try that does not miss hits
`b`.
-/

namespace Agecrypt

variable {α β γ ε : Type}

def FirstHit (g : α → Except ε (Option β)) (xs : List α) (b : β) : Prop :=
  ∃ before x after, xs = before ++ x :: after ∧ (∀ y ∈ before, g y = .ok none) ∧
    g x = .ok (some b)

/-- All tries miss. -/
def NoHit (g : α → Except ε (Option β)) (xs : List α) : Prop := ∀ x ∈ xs, g x = .ok none

variable {g : α → Except ε (Option β)} {x : α} {xs ys : List α} {b c : β}

theorem not_firstHit_nil : ¬ FirstHit g [] b := by
  intro ⟨before, x, after, h, _⟩
  exact absurd h.symm (by simp)

theorem firstHit_cons :
    FirstHit g (x :: xs) b ↔ g x = .ok (some b) ∨ (g x = .ok none ∧ FirstHit g xs b) := by
  constructor
  · intro ⟨before, y, after, h, hmiss, hhit⟩
    cases before with
    | nil =>
      rw [List.nil_append] at h
      rw [(List.cons.inj h).1]
      exact .inl hhit
    | cons z before =>
      obtain ⟨hz, hxs⟩ := List.cons.inj h
      obtain ⟨hmiss₁, hmiss⟩ := List.forall_mem_cons.mp hmiss
      rw [hz]
      exact .inr ⟨hmiss₁, before, y, after, hxs, hmiss, hhit⟩
  · intro h
    rcases h with h | ⟨hx, before, y, after, hxs, hmiss, hhit⟩
    · exact ⟨[], x, xs, rfl, fun y hy => absurd hy List.not_mem_nil, h⟩
    · exact ⟨x :: before, y, after, by rw [hxs]; rfl, List.forall_mem_cons.mpr ⟨hx, hmiss⟩, hhit⟩

theorem noHit_cons : NoHit g (x :: xs) ↔ g x = .ok none ∧ NoHit g xs := List.forall_mem_cons

theorem firstHit_append :
    FirstHit g (xs ++ ys) b ↔ FirstHit g xs b ∨ (NoHit g xs ∧ FirstHit g ys b) := by
  induction xs with
  | nil =>
    have hmiss : NoHit g [] := fun x hx => absurd hx List.not_mem_nil
    rw [List.nil_append]
    constructor
    · exact fun h => .inr ⟨hmiss, h⟩
    · exact fun h => h.elim (fun h => absurd h not_firstHit_nil) And.right
  | cons x xs ih =>
    rw [List.cons_append, firstHit_cons, firstHit_cons, noHit_cons, ih]
    constructor
    · intro h
      rcases h with h | ⟨hx, h | ⟨hmiss, h⟩⟩
      · exact .inl (.inl h)
      · exact .inl (.inr ⟨hx, h⟩)
      · exact .inr ⟨⟨hx, hmiss⟩, h⟩
    · intro h
      rcases h with (h | ⟨hx, h⟩) | ⟨⟨hx, hmiss⟩, h⟩
      · exact .inl h
      · exact .inr ⟨hx, .inl h⟩
      · exact .inr ⟨hx, .inr ⟨hmiss, h⟩⟩

theorem firstHit_map {f : γ → α} {zs : List γ} :
    FirstHit g (zs.map f) b ↔ FirstHit (fun z => g (f z)) zs b := by
  induction zs with
  | nil => exact ⟨fun h => absurd h not_firstHit_nil, fun h => absurd h not_firstHit_nil⟩
  | cons z zs ih => rw [List.map_cons, firstHit_cons, firstHit_cons, ih]

theorem noHit_map {f : γ → α} {zs : List γ} :
    NoHit g (zs.map f) ↔ NoHit (fun z => g (f z)) zs := List.forall_mem_map

/-- When no try fails and all hits agree, one hit is enough. -/
theorem firstHit_of_agree (hok : ∀ x ∈ xs, ∃ r, g x = .ok r)
    (hagree : ∀ x ∈ xs, ∀ c, g x = .ok (some c) → c = b) (hhit : ∃ x ∈ xs, g x = .ok (some b)) :
    FirstHit g xs b := by
  induction xs with
  | nil =>
    obtain ⟨x, hx, -⟩ := hhit
    exact absurd hx List.not_mem_nil
  | cons x xs ih =>
    obtain ⟨⟨r, hr⟩, hok'⟩ := List.forall_mem_cons.mp hok
    obtain ⟨hx, hagree'⟩ := List.forall_mem_cons.mp hagree
    apply firstHit_cons.mpr
    cases r with
    | some c =>
      rw [← hx c hr]
      exact .inl hr
    | none =>
      refine .inr ⟨hr, ih hok' hagree' ?_⟩
      obtain ⟨y, hy, hyhit⟩ := hhit
      rcases List.mem_cons.mp hy with rfl | hy
      · rw [hr] at hyhit
        cases hyhit
      · exact ⟨y, hy, hyhit⟩

end Agecrypt
