import Agecrypt.Agec.Grammar
import Agecrypt.Lib.Recognize

/-!
# What the parser recognises

`Delivers At h` says that `bread` and `bpeek` under the handler `h` answer
the bytes of the input in order.  Over any such input each function of
`parse.c` recognises a language, and `getstanza` that of the accepted forms.
-/

namespace Agecrypt

open ProgE

/-! ## The rounds of the loops -/

theorem vchar_ne {c : UInt8} (h : vchar c = true) : ¬ (c = SP ∨ c = NL) := by
  intro hc
  rcases hc with rfl | rfl <;> simp [vchar, SP, NL] at h

/-- A space or a newline is next. -/
def AtEnd (u : List UInt8) : Prop := ∃ c, u.head? = some c ∧ (c = SP ∨ c = NL)

/-- A round of the loop of `skiparg`. -/
inductive SkipargRound : Unit → Unit ⊕ Unit → List UInt8 → List UInt8 → Prop
  | stop {u} : AtEnd u → SkipargRound () (.inr ()) [] u
  | char {c u} : vchar c = true → SkipargRound () (.inl ()) [c] u

theorem skiparg_loopText {b c : Unit} {t u : List UInt8} :
    LoopText SkipargRound b c t u ↔ Visible t ∧ AtEnd u := by
  constructor
  · intro hloop
    induction hloop with
    | stop hb =>
      cases hb with
      | stop hend => exact ⟨fun c hc => absurd hc List.not_mem_nil, hend⟩
    | more hb _ ih =>
      cases hb with
      | char hc => exact ⟨List.forall_mem_cons.mpr ⟨hc, ih.1⟩, ih.2⟩
  · rintro ⟨ht, hend⟩
    induction t with
    | nil => exact .stop (.stop hend)
    | cons c t ih =>
      have hc := List.forall_mem_cons.mp ht
      exact .more (.char hc.1) (ih hc.2)

/-- A round of the loop of `skipargline`. -/
inductive SkiparglineRound : Bool → Bool ⊕ Unit → List UInt8 → List UInt8 → Prop
  | stop {u} : SkiparglineRound false (.inr ()) [NL] u
  | space {u} : SkiparglineRound false (.inl true) [SP] u
  | char {b c u} : vchar c = true → SkiparglineRound b (.inl false) [c] u

/-- The rest of an argument line; directly behind a space an argument must
follow. -/
def ArgTail (prevspace : Bool) (t : List UInt8) : Prop :=
  ∃ arg args, (prevspace = true → arg ≠ []) ∧ Visible arg ∧
    (∀ arg ∈ args, arg ≠ [] ∧ Visible arg) ∧ t = arg ++ spaced args ++ [NL]

theorem ArgTail.space {t : List UInt8} (h : ArgTail true t) : ArgTail false (SP :: t) := by
  obtain ⟨arg, args, hne, hvis, hargs, rfl⟩ := h
  refine ⟨[], arg :: args, fun hf => Bool.noConfusion hf, fun c hc => absurd hc List.not_mem_nil,
    List.forall_mem_cons.mpr ⟨⟨hne rfl, hvis⟩, hargs⟩, ?_⟩
  simp [spaced]

theorem ArgTail.char {b : Bool} {c : UInt8} {t : List UInt8} (hc : vchar c = true)
    (h : ArgTail false t) : ArgTail b (c :: t) := by
  obtain ⟨arg, args, -, hvis, hargs, rfl⟩ := h
  exact ⟨c :: arg, args, fun _ => List.cons_ne_nil c arg, List.forall_mem_cons.mpr ⟨hc, hvis⟩,
    hargs, rfl⟩

theorem skipargline_chars {b : Bool} {c : Unit} {arg t u : List UInt8} (hvis : Visible arg)
    (hne : b = true → arg ≠ []) (h : LoopText SkiparglineRound false c t u) :
    LoopText SkiparglineRound b c (arg ++ t) u := by
  induction arg generalizing b with
  | nil =>
    cases b with
    | false => exact h
    | true => exact absurd rfl (hne rfl)
  | cons x arg ih =>
    have hx := List.forall_mem_cons.mp hvis
    show LoopText SkiparglineRound b c ([x] ++ (arg ++ t)) u
    exact .more (.char hx.1) (ih hx.2 fun hf => Bool.noConfusion hf)

theorem skipargline_loopText {b : Bool} {c : Unit} {t u : List UInt8} :
    LoopText SkiparglineRound b c t u ↔ ArgTail b t := by
  constructor
  · intro hloop
    induction hloop with
    | stop hb =>
      cases hb with
      | stop => exact ⟨[], [], fun hf => Bool.noConfusion hf,
          fun c hc => absurd hc List.not_mem_nil, fun c hc => absurd hc List.not_mem_nil, rfl⟩
    | more hb _ ih =>
      cases hb with
      | space => exact ih.space
      | char hc => exact .char hc ih
  · rintro ⟨arg, args, hne, hvis, hargs, ht⟩
    rw [ht, List.append_assoc]
    apply skipargline_chars hvis hne
    clear ht
    induction args with
    | nil => exact .stop .stop
    | cons arg' args ih =>
      obtain ⟨⟨hne', hvis'⟩, hargs'⟩ := List.forall_mem_cons.mp hargs
      rw [show spaced (arg' :: args) ++ [NL] = [SP] ++ (arg' ++ (spaced args ++ [NL])) by
        simp [spaced]]
      exact .more .space (skipargline_chars hvis' (fun _ => hne') (ih hargs'))

/-- A round of the loop of `skipargbody`. -/
inductive SkipargbodyRound : List UInt8 → List UInt8 ⊕ Unit → List UInt8 → List UInt8 → Prop
  | full {line u} : line.length = 64 → base64decode line false ≠ none →
      SkipargbodyRound line (.inl []) [NL] u
  | last {line u} : line.length < 64 → base64decode line false ≠ none →
      SkipargbodyRound line (.inr ()) [NL] u
  | char {line c u} : c ≠ NL → line.length ≠ 64 → SkipargbodyRound line (.inl (line ++ [c])) [c] u

/-- The body of a stanza that is skipped. -/
def BodyText (t : List UInt8) : Prop :=
  ∃ lines last, (∀ line ∈ lines, line.length = 64 ∧ base64decode line false ≠ none) ∧
    last.length < 64 ∧ base64decode last false ≠ none ∧ t = fullLines lines ++ last ++ [NL]

theorem nl_not_mem {line : List UInt8} (h : base64decode line false ≠ none) : NL ∉ line := by
  obtain ⟨d, hd⟩ := Option.ne_none_iff_exists'.mp h
  obtain ⟨lone, hline, hlone⟩ := plain_of_base64decode hd
  have hno : ∀ c, sextet c = true → c ≠ NL := by
    intro c hc hnl
    rw [hnl] at hc
    exact absurd hc (by decide)
  intro hmem
  rw [hline] at hmem
  rcases List.mem_append.mp hmem with hmem | hmem
  · exact hno _ (sextet_plain d _ hmem) rfl
  · rcases hlone with rfl | ⟨c, rfl, hc, -⟩
    · exact absurd hmem List.not_mem_nil
    · exact hno _ hc (List.mem_singleton.mp hmem).symm

theorem skipargbody_chars {line w t u : List UInt8} {c : Unit} (hnl : NL ∉ w)
    (hlen : (line ++ w).length ≤ 64) (h : LoopText SkipargbodyRound (line ++ w) c t u) :
    LoopText SkipargbodyRound line c (w ++ t) u := by
  induction w generalizing line with
  | nil =>
    rw [List.append_nil] at h
    exact h
  | cons x w ih =>
    have hx : x ≠ NL := fun hx => hnl (hx ▸ List.mem_cons_self)
    rw [List.append_cons] at h hlen
    have hle : line.length ≠ 64 := by
      simp only [List.length_append, List.length_singleton] at hlen
      omega
    show LoopText SkipargbodyRound line c ([x] ++ (w ++ t)) u
    exact .more (.char hx hle) (ih (fun hmem => hnl (List.mem_cons_of_mem x hmem)) hlen h)

theorem skipargbody_loopText {line : List UInt8} {c : Unit} {t u : List UInt8}
    (h : LoopText SkipargbodyRound line c t u) :
    ∃ lines last, (∀ line ∈ lines, line.length = 64 ∧ base64decode line false ≠ none) ∧
      last.length < 64 ∧ base64decode last false ≠ none ∧
      line ++ t = fullLines lines ++ last ++ [NL] := by
  induction h with
  | stop hb =>
    cases hb with
    | last hlen hdec =>
      exact ⟨[], _, fun c hc => absurd hc List.not_mem_nil, hlen, hdec, rfl⟩
  | @more line _ _ _ _ _ hb _ ih =>
    obtain ⟨lines, last, hlines, hlen, hdec, htext⟩ := ih
    cases hb with
    | full hfull hok =>
      refine ⟨line :: lines, last, List.forall_mem_cons.mpr ⟨⟨hfull, hok⟩, hlines⟩, hlen, hdec, ?_⟩
      rw [List.nil_append] at htext
      rw [htext]
      simp [fullLines]
    | char hne hle =>
      rw [List.append_assoc] at htext
      exact ⟨lines, last, hlines, hlen, hdec, htext⟩

theorem bodyText_iff {c : Unit} {t u : List UInt8} :
    LoopText SkipargbodyRound [] c t u ↔ BodyText t := by
  constructor
  · intro h
    exact skipargbody_loopText h
  · rintro ⟨lines, last, hlines, hlen, hdec, ht⟩
    rw [ht]
    clear ht
    induction lines with
    | nil =>
      refine @skipargbody_chars [] _ _ _ _ (nl_not_mem hdec) (Nat.le_of_lt hlen) ?_
      exact .stop (.last hlen hdec)
    | cons line lines ih =>
      obtain ⟨⟨hfull, hok⟩, hlines'⟩ := List.forall_mem_cons.mp hlines
      rw [show fullLines (line :: lines) ++ last ++ [NL] =
        line ++ ([NL] ++ (fullLines lines ++ last ++ [NL])) by simp [fullLines]]
      refine @skipargbody_chars [] _ _ _ _ (nl_not_mem hok) (Nat.le_of_eq hfull) ?_
      exact .more (.full hfull hok) (ih hlines')

/-! ## The input -/

/-- The calls answer the bytes of the input in order. -/
structure Delivers {σ : Type} (At : σ → List UInt8 → Prop) (h : Handler RdOp RdRet σ) : Prop where
  bread : ∀ {s l} (n : Nat), At s l →
    ∃ s', h (.bread n) s = some (some (l.take n), s') ∧ At s' (l.drop n)
  bpeek : ∀ {s l}, At s l → ∃ s', h .bpeek s = some (l.head?.elim .eof .char, s') ∧ At s' l

section

variable {σ α : Type} {At : σ → List UInt8 → Prop} {h : Handler RdOp RdRet σ}

/-- `return eget()` is no success. -/
theorem recognizes_failed : Recognizes At h (Rd.failed : Rd α) fun _ _ _ => False := by
  apply Recognizes.never
  intro s l a s' _ hr
  obtain ⟨e, s₁, -, hr'⟩ := runs_op_bind.mp hr
  cases (runs_throw.mp hr').1

variable (hd : Delivers At h)

include hd

/-! ## Reading -/

theorem recognizes_bread {n : Nat} {f : Option (List UInt8) → Rd α}
    {G : List UInt8 → α → List UInt8 → List UInt8 → Prop}
    (hf : ∀ bs, Recognizes At h (f (some bs)) (G bs)) :
    Recognizes At h (Rd.bread n >>= f) fun a t u =>
      ∃ bs t', t = bs ++ t' ∧ bs = (t ++ u).take n ∧ G bs a t' u := by
  constructor
  · intro s l a s' hs hr
    obtain ⟨r, s₁, ho, hr'⟩ := runs_op_bind.mp hr
    obtain ⟨s₁', ho', hs₁⟩ := hd.bread n hs
    obtain ⟨rfl, rfl⟩ := Prod.mk.inj (Option.some.inj (ho.symm.trans ho'))
    obtain ⟨t', u, hl, hg, hs'⟩ := (hf _).sound hs₁ hr'
    have hsplit : l = l.take n ++ t' ++ u := by
      rw [List.append_assoc, ← hl, List.take_append_drop]
    exact ⟨l.take n ++ t', u, hsplit, ⟨l.take n, t', rfl, by rw [← hsplit], hg⟩, hs'⟩
  · intro s a t u hs hg
    obtain ⟨bs, t', ht, hbs, hg⟩ := hg
    obtain ⟨s₁, ho, hs₁⟩ := hd.bread n hs
    rw [← hbs] at ho
    have hrest : (t ++ u).drop n = t' ++ u := by
      have hall := List.take_append_drop n (t ++ u)
      rw [← hbs] at hall
      apply List.append_cancel_left (hall.trans _)
      rw [ht, List.append_assoc]
    rw [hrest] at hs₁
    obtain ⟨s', hr, hs'⟩ := (hf bs).complete hs₁ hg
    exact ⟨s', runs_op_bind.mpr ⟨_, s₁, ho, hr⟩, hs'⟩

private theorem readc_runs {s : σ} {l : List UInt8} (hs : At s l) :
    ∃ s', Runs h readc s (.ok (l.head?.elim .eof .char)) s' ∧ At s' (l.drop 1) := by
  obtain ⟨s₁, ho, hs₁⟩ := hd.bread 1 hs
  refine ⟨s₁, runs_op_bind.mpr ⟨_, s₁, ho, ?_⟩, hs₁⟩
  cases l with
  | nil => exact runs_pure.mpr ⟨rfl, rfl⟩
  | cons c l => exact runs_pure.mpr ⟨rfl, rfl⟩

/-- `readc`, with the text behind a character or at the end of the input. -/
theorem recognizes_readc_or {f : Peek → Rd α}
    {G : UInt8 → α → List UInt8 → List UInt8 → Prop} {G' : α → List UInt8 → List UInt8 → Prop}
    (heof : Recognizes At h (f .eof) G') (hf : ∀ c, Recognizes At h (f (.char c)) (G c)) :
    Recognizes At h (readc >>= f) fun a t u =>
      (∃ c t', t = c :: t' ∧ G c a t' u) ∨ (t ++ u = [] ∧ G' a t u) := by
  constructor
  · intro s l a s' hs hr
    obtain ⟨s₁, hr₁, hs₁⟩ := readc_runs hd hs
    have hr' := (Runs.bind_ok hr₁).mp hr
    cases l with
    | nil =>
      obtain ⟨t, u, hl, hg, hs'⟩ := heof.sound hs₁ hr'
      exact ⟨t, u, hl, .inr ⟨hl.symm, hg⟩, hs'⟩
    | cons c l =>
      obtain ⟨t, u, hl, hg, hs'⟩ := (hf c).sound hs₁ hr'
      exact ⟨c :: t, u, by rw [List.cons_append, ← hl]; rfl, .inl ⟨c, t, rfl, hg⟩, hs'⟩
  · intro s a t u hs hg
    obtain ⟨s₁, hr₁, hs₁⟩ := readc_runs hd hs
    rcases hg with ⟨c, t', rfl, hg⟩ | ⟨hnil, hg⟩
    · obtain ⟨s', hr, hs'⟩ := (hf c).complete hs₁ hg
      exact ⟨s', (Runs.bind_ok hr₁).mpr hr, hs'⟩
    · have hrest : (t ++ u).drop 1 = t ++ u := by
        rw [hnil]
        rfl
      rw [hrest] at hs₁
      rw [hnil] at hr₁
      obtain ⟨s', hr, hs'⟩ := heof.complete hs₁ hg
      exact ⟨s', (Runs.bind_ok hr₁).mpr hr, hs'⟩

theorem recognizes_readc {f : Peek → Rd α} {G : UInt8 → α → List UInt8 → List UInt8 → Prop}
    (heof : Recognizes At h (f .eof) fun _ _ _ => False)
    (hf : ∀ c, Recognizes At h (f (.char c)) (G c)) :
    Recognizes At h (readc >>= f) fun a t u => ∃ c t', t = c :: t' ∧ G c a t' u := by
  refine (recognizes_readc_or hd heof hf).congr fun a t u => ?_
  simp only [and_false, or_false]

/-- `readc` whose result is not looked at. -/
theorem recognizes_skipc {p : Rd α} {G : α → List UInt8 → List UInt8 → Prop}
    (hp : Recognizes At h p G) :
    Recognizes At h (readc >>= fun _ => p) fun a t u =>
      (∃ c t', t = c :: t' ∧ G a t' u) ∨ (t ++ u = [] ∧ G a t u) :=
  recognizes_readc_or hd hp fun _ => hp

theorem recognizes_bpeek {f : Peek → Rd α} {G : UInt8 → α → List UInt8 → List UInt8 → Prop}
    (heof : Recognizes At h (f .eof) fun _ _ _ => False)
    (hf : ∀ c, Recognizes At h (f (.char c)) (G c)) :
    Recognizes At h (Rd.bpeek >>= f) fun a t u => ∃ c, (t ++ u).head? = some c ∧ G c a t u := by
  constructor
  · intro s l a s' hs hr
    obtain ⟨s₁, ho, hs₁⟩ := hd.bpeek hs
    obtain ⟨r, s₁', ho', hr'⟩ := runs_op_bind.mp hr
    obtain ⟨rfl, rfl⟩ := Prod.mk.inj (Option.some.inj (ho.symm.trans ho'))
    cases l with
    | nil =>
      obtain ⟨t, u, -, hno, -⟩ := heof.sound hs₁ hr'
      exact hno.elim
    | cons c l =>
      obtain ⟨t, u, hl, hg, hs'⟩ := (hf c).sound hs₁ hr'
      exact ⟨t, u, hl, ⟨c, by rw [← hl]; rfl, hg⟩, hs'⟩
  · intro s a t u hs hg
    obtain ⟨c, hc, hg⟩ := hg
    obtain ⟨s₁, ho, hs₁⟩ := hd.bpeek hs
    rw [hc] at ho
    obtain ⟨s', hr, hs'⟩ := (hf c).complete hs₁ hg
    exact ⟨s', runs_op_bind.mpr ⟨_, s₁, ho, hr⟩, hs'⟩

theorem recognizes_getversion :
    Recognizes At h getversion fun _ t _ => t = versionLine := by
  unfold getversion
  refine (recognizes_bread hd fun bs => .ite (.throw _) (.ite (.throw _) (.pure ()))).congr ?_
  intro a t u
  constructor
  · rintro ⟨bs, t', ht, hbs, hg⟩
    split at hg
    · exact hg.elim
    split at hg
    · exact hg.elim
    · rename_i hlen hne
      rw [ht, hg.2, List.append_nil]
      exact not_not.mp hne
  · intro ht
    refine ⟨versionLine, [], by rw [ht, List.append_nil], by rw [ht, List.take_left], ?_⟩
    simp

/-! ## The type of a stanza -/

theorem recognizes_skiparg : Recognizes At h skiparg fun _ t u => Visible t ∧ AtEnd u := by
  unfold skiparg
  refine (Recognizes.loop (fun b => (recognizes_bpeek hd (.throw _) fun c =>
    .ite (.pure _) (.ite (.throw _) (recognizes_skipc hd (.pure _)))).congr ?_) ()).congr
    fun a t u => skiparg_loopText
  intro r t u
  constructor
  · rintro ⟨c, hc, hg⟩
    split at hg
    · rename_i hend
      obtain ⟨rfl, rfl⟩ := hg
      exact .stop ⟨c, hc, hend⟩
    split at hg
    · exact hg.elim
    · rename_i hvis
      rcases hg with ⟨c', t', rfl, rfl, rfl⟩ | ⟨hnil, -⟩
      · obtain rfl : c' = c := Option.some.inj hc
        exact .char (not_not.mp hvis)
      · rw [hnil] at hc
        cases hc
  · intro hg
    cases hg with
    | stop hend =>
      obtain ⟨c, hc, hend⟩ := hend
      refine ⟨c, hc, ?_⟩
      rw [if_pos hend]
      exact ⟨rfl, rfl⟩
    | char hvis =>
      rename_i c
      refine ⟨c, rfl, ?_⟩
      rw [if_neg (vchar_ne hvis), if_neg (not_not.mpr hvis)]
      exact .inl ⟨c, [], rfl, rfl, rfl⟩

/-! ## Skipping a stanza -/

theorem recognizes_skipargline :
    Recognizes At h skipargline fun _ t _ => ArgTail true t := by
  unfold skipargline
  refine (Recognizes.loop (fun b => (recognizes_readc hd (.throw _) fun c =>
    .ite (.throw _) (.ite (.pure _) (.ite (.pure _) (.ite (.throw _) (.pure _))))).congr ?_)
    true).congr fun a t u => skipargline_loopText
  intro r t u
  constructor
  · rintro ⟨c, t', ht, hg⟩
    split at hg
    · exact hg.elim
    rename_i hprev
    split at hg
    · rename_i hnl
      obtain ⟨rfl, rfl⟩ := hg
      cases b with
      | false =>
        rw [ht, hnl]
        exact .stop
      | true => exact absurd ⟨rfl, .inr hnl⟩ hprev
    split at hg
    · rename_i hsp
      obtain ⟨rfl, rfl⟩ := hg
      cases b with
      | false =>
        rw [ht, hsp]
        exact .space
      | true => exact absurd ⟨rfl, .inl hsp⟩ hprev
    split at hg
    · exact hg.elim
    · rename_i hvis
      obtain ⟨rfl, rfl⟩ := hg
      rw [ht]
      exact .char (not_not.mp hvis)
  · intro hg
    cases hg with
    | stop => exact ⟨NL, [], rfl, by simp⟩
    | space => exact ⟨SP, [], rfl, by simp [SP, NL]⟩
    | char hvis =>
      rename_i c
      have hne := vchar_ne hvis
      refine ⟨c, [], rfl, ?_⟩
      rw [if_neg (fun hp => hne hp.2), if_neg (fun hnl => hne (.inr hnl)),
        if_neg (fun hsp => hne (.inl hsp)), if_neg (not_not.mpr hvis)]
      exact ⟨rfl, rfl⟩

theorem recognizes_skipargbody :
    Recognizes At h skipargbody fun _ t _ => BodyText t := by
  unfold skipargbody
  refine (Recognizes.loop (fun line => (recognizes_readc hd (G := fun c r t _ =>
    if c = NL then
      if line.length > 64 then False
      else base64decode line false ≠ none ∧
        r = (if line.length < 64 then .inr () else .inl []) ∧ t = []
    else if line.length = 64 then False
    else r = .inl (line ++ [c]) ∧ t = []) (.throw _) fun c => ?_).congr ?_)
    []).congr fun a t u => bodyText_iff
  · dsimp only
    refine .ite (.ite (.throw _) ?_) (.ite (.throw _) (.pure _))
    cases base64decode line false with
    | none => exact (Recognizes.throw _).congr fun a t u => by simp
    | some d => exact (Recognizes.pure _).congr fun a t u => by simp
  intro r t u
  constructor
  · rintro ⟨c, t', ht, hg⟩
    split at hg
    · rename_i hnl
      split at hg
      · exact hg.elim
      · rename_i hle
        obtain ⟨hdec, hr, rfl⟩ := hg
        rw [ht, hnl, hr]
        split
        · rename_i hlt
          exact .last hlt hdec
        · exact .full (by omega) hdec
    · rename_i hnl
      split at hg
      · exact hg.elim
      · rename_i hle
        obtain ⟨rfl, rfl⟩ := hg
        rw [ht]
        exact .char hnl hle
  · intro hg
    cases hg with
    | full hlen hdec =>
      refine ⟨NL, [], rfl, ?_⟩
      rw [if_pos rfl, if_neg (by omega), if_neg (by omega)]
      exact ⟨hdec, rfl, rfl⟩
    | last hlen hdec =>
      refine ⟨NL, [], rfl, ?_⟩
      rw [if_pos rfl, if_neg (by omega), if_pos hlen]
      exact ⟨hdec, rfl, rfl⟩
    | char hne hle =>
      refine ⟨_, [], rfl, ?_⟩
      rw [if_neg hne, if_neg hle]
      exact ⟨rfl, rfl⟩

/-- A stanza of which the type has been read. -/
theorem recognizes_skipstanza :
    Recognizes At h skipstanza fun _ t _ => ∃ args body,
      (∀ arg ∈ args, arg ≠ [] ∧ Visible arg) ∧ BodyText body ∧ t = spaced args ++ [NL] ++ body := by
  unfold skipstanza
  refine (recognizes_readc hd (.throw _) fun c =>
    .ite ((recognizes_skipargline hd).bind fun _ => recognizes_skipargbody hd)
      (.ite (.throw _) (recognizes_skipargbody hd))).congr fun a t u => ?_
  constructor
  · rintro ⟨c, t', ht, hg⟩
    split at hg
    · rename_i hsp
      obtain ⟨_, t₁, t₂, rfl, ⟨arg, args, hne, hvis, hargs, rfl⟩, hbody⟩ := hg
      refine ⟨arg :: args, t₂, List.forall_mem_cons.mpr ⟨⟨hne rfl, hvis⟩, hargs⟩, hbody, ?_⟩
      rw [ht, hsp]
      simp [spaced]
    split at hg
    · exact hg.elim
    · rename_i hnl
      refine ⟨[], t', fun c hc => absurd hc List.not_mem_nil, hg, ?_⟩
      rw [ht, not_not.mp hnl]
      rfl
  · rintro ⟨args, body, hargs, hbody, ht⟩
    cases args with
    | nil =>
      refine ⟨NL, body, ht, ?_⟩
      rw [if_neg (by decide), if_neg (fun hne => hne rfl)]
      exact hbody
    | cons arg args =>
      obtain ⟨⟨hne, hvis⟩, hargs'⟩ := List.forall_mem_cons.mp hargs
      refine ⟨SP, arg ++ spaced args ++ [NL] ++ body, by rw [ht]; simp [spaced], ?_⟩
      rw [if_pos rfl]
      exact ⟨(), _, body, rfl, ⟨arg, args, fun _ => hne, hvis, hargs', rfl⟩, hbody⟩

/-! ## The type of a stanza, up to a number of characters -/

/-- `getarg` stops in front of the end of the type, or after `rest`
characters. -/
def GetargText (rest : Nat) (t u : List UInt8) (full : Bool) : Prop :=
  Visible t ∧ ∃ c, u.head? = some c ∧
    ((full = true ∧ t.length ≤ rest ∧ (c = SP ∨ c = NL)) ∨
      (full = false ∧ t.length = rest ∧ ¬ (c = SP ∨ c = NL)))

theorem recognizes_getarg (rest : Nat) (dest : List UInt8) :
    Recognizes At h (getarg rest dest) fun r t u =>
      r.1 = dest ++ t ∧ GetargText rest t u r.2 := by
  induction rest generalizing dest with
  | zero =>
    unfold getarg
    refine (recognizes_bpeek hd (.throw _) fun c => .ite (.pure _) (.pure _)).congr fun r t u => ?_
    constructor
    · rintro ⟨c, hc, hg⟩
      split at hg
      · rename_i hend
        obtain ⟨rfl, rfl⟩ := hg
        exact ⟨(List.append_nil dest).symm, fun c hc => absurd hc List.not_mem_nil, c, hc,
          .inl ⟨rfl, Nat.le_refl 0, hend⟩⟩
      · rename_i hend
        obtain ⟨rfl, rfl⟩ := hg
        exact ⟨(List.append_nil dest).symm, fun c hc => absurd hc List.not_mem_nil, c, hc,
          .inr ⟨rfl, rfl, hend⟩⟩
    · rintro ⟨hr, hvis, c, hc, hcase⟩
      have hnil : t = [] := by
        rcases hcase with ⟨-, hlen, -⟩ | ⟨-, hlen, -⟩
        · exact List.length_eq_zero_iff.mp (Nat.le_zero.mp hlen)
        · exact List.length_eq_zero_iff.mp hlen
      rw [hnil, List.append_nil] at hr
      refine ⟨c, by rw [hnil]; exact hc, ?_⟩
      rcases hcase with ⟨hfull, -, hend⟩ | ⟨hfull, -, hend⟩
      · rw [if_pos hend]
        exact ⟨Prod.ext hr hfull, hnil⟩
      · rw [if_neg hend]
        exact ⟨Prod.ext hr hfull, hnil⟩
  | succ rest ih =>
    unfold getarg
    refine (recognizes_bpeek hd (.throw _) fun c => .ite (.pure _) (.ite (.throw _)
      (recognizes_skipc hd (ih (dest ++ [c]))))).congr fun r t u => ?_
    constructor
    · rintro ⟨c, hc, hg⟩
      split at hg
      · rename_i hend
        obtain ⟨rfl, rfl⟩ := hg
        exact ⟨(List.append_nil dest).symm, fun c hc => absurd hc List.not_mem_nil, c, hc,
          .inl ⟨rfl, Nat.zero_le _, hend⟩⟩
      split at hg
      · exact hg.elim
      · rename_i hvis
        rcases hg with ⟨c', t', rfl, hr, hvis', c₁, hc₁, hcase⟩ | ⟨hnil, -⟩
        · obtain rfl : c' = c := Option.some.inj hc
          refine ⟨by rw [hr, List.append_assoc]; rfl,
            List.forall_mem_cons.mpr ⟨not_not.mp hvis, hvis'⟩, c₁, hc₁, ?_⟩
          rcases hcase with ⟨hfull, hlen, hend⟩ | ⟨hfull, hlen, hend⟩
          · exact .inl ⟨hfull, by rw [List.length_cons]; omega, hend⟩
          · exact .inr ⟨hfull, by rw [List.length_cons]; omega, hend⟩
        · rw [hnil] at hc
          cases hc
    · rintro ⟨hr, hvis, c, hc, hcase⟩
      cases t with
      | nil =>
        rcases hcase with ⟨hfull, -, hend⟩ | ⟨-, hlen, -⟩
        · refine ⟨c, hc, ?_⟩
          rw [if_pos hend]
          exact ⟨Prod.ext (hr.trans (List.append_nil dest)) hfull, rfl⟩
        · cases hlen
      | cons x t =>
        obtain ⟨hx, hvis'⟩ := List.forall_mem_cons.mp hvis
        refine ⟨x, rfl, ?_⟩
        rw [if_neg (vchar_ne hx), if_neg (not_not.mpr hx)]
        refine .inl ⟨x, t, rfl, by rw [hr, List.append_assoc]; rfl, hvis', c, hc, ?_⟩
        rcases hcase with ⟨hfull, hlen, hend⟩ | ⟨hfull, hlen, hend⟩
        · exact .inl ⟨hfull, by rw [List.length_cons] at hlen; omega, hend⟩
        · exact .inr ⟨hfull, by rw [List.length_cons] at hlen; omega, hend⟩

/-! ## Values in base64 -/

/-- What `b64chars` reads. -/
inductive B64charsText (term : UInt8) (rest : Nat) (buf : List UInt8) :
    Option (Option (List UInt8)) → List UInt8 → List UInt8 → Prop
  | value {w u} : (∀ c ∈ w, c ≠ term ∧ b64char c = true) → w.length ≤ rest →
      B64charsText term rest buf (some (some (buf ++ w))) (w ++ [term]) u
  | eof {w} : (∀ c ∈ w, c ≠ term ∧ b64char c = true) → w.length ≤ rest →
      B64charsText term rest buf (some none) w []
  | bad {w c u} : (∀ c ∈ w, c ≠ term ∧ b64char c = true) → c ≠ term →
      (w.length = rest ∨ w.length < rest ∧ b64char c = false) →
      B64charsText term rest buf (some none) (w ++ [c]) u

omit hd in
theorem B64charsText.cons {term : UInt8} {rest : Nat} {buf : List UInt8} {c : UInt8}
    {r : Option (Option (List UInt8))} {t u : List UInt8} (hne : c ≠ term)
    (hb : b64char c = true) (h : B64charsText term rest (buf ++ [c]) r t u) :
    B64charsText term (rest + 1) buf r (c :: t) u := by
  cases h with
  | value hw hlen =>
    rename_i w
    rw [← List.append_cons]
    exact .value (List.forall_mem_cons.mpr ⟨⟨hne, hb⟩, hw⟩) (Nat.succ_le_succ hlen)
  | eof hw hlen => exact .eof (List.forall_mem_cons.mpr ⟨⟨hne, hb⟩, hw⟩) (Nat.succ_le_succ hlen)
  | bad hw hc hlen =>
    refine .bad (List.forall_mem_cons.mpr ⟨⟨hne, hb⟩, hw⟩) hc ?_
    rcases hlen with hlen | ⟨hlen, hbad⟩
    · exact .inl (congrArg Nat.succ hlen)
    · exact .inr ⟨Nat.succ_lt_succ hlen, hbad⟩

theorem recognizes_b64chars (term : UInt8) (rest : Nat) (buf : List UInt8) :
    Recognizes At h (b64chars term rest buf) fun r t u => B64charsText term rest buf r t u := by
  induction rest generalizing buf with
  | zero =>
    unfold b64chars
    refine Recognizes.congr (recognizes_readc_or hd (.pure _) fun c => .pure _) fun r t u => ?_
    constructor
    · intro hg
      rcases hg with ⟨c, t', ht, hr, rfl⟩ | ⟨hnil, hr, rfl⟩
      · rw [ht]
        split at hr
        · rename_i hne
          rw [hr]
          exact @B64charsText.bad _ _ _ [] _ _ (fun c hc => absurd hc List.not_mem_nil) hne
            (.inl rfl)
        · rename_i heq
          rw [hr, not_not.mp heq]
          have hv : B64charsText term 0 buf (some (some (buf ++ []))) ([] ++ [term]) u :=
            .value (fun c hc => absurd hc List.not_mem_nil) (Nat.le_refl 0)
          rw [List.append_nil] at hv
          exact hv
      · rw [hr, show u = [] from hnil]
        exact .eof (fun c hc => absurd hc List.not_mem_nil) (Nat.le_refl 0)
    · intro hg
      cases hg with
      | value hw hlen =>
        rename_i w
        obtain rfl : w = [] := List.length_eq_zero_iff.mp (Nat.le_zero.mp hlen)
        refine .inl ⟨term, [], rfl, ?_, rfl⟩
        rw [List.append_nil, if_neg (fun hne => hne rfl)]
      | eof hw hlen =>
        obtain rfl := List.length_eq_zero_iff.mp (Nat.le_zero.mp hlen)
        exact .inr ⟨rfl, rfl, rfl⟩
      | bad hw hc hlen =>
        rename_i w c
        have hw0 : w = [] := by
          apply List.length_eq_zero_iff.mp
          omega
        refine .inl ⟨c, [], by rw [hw0]; rfl, ?_, rfl⟩
        rw [if_pos hc]
  | succ rest ih =>
    unfold b64chars
    refine Recognizes.congr (recognizes_readc_or hd (.pure _) fun c => .ite (.pure _)
      (.ite (.pure _) (ih (buf ++ [c])))) fun r t u => ?_
    constructor
    · intro hg
      rcases hg with ⟨c, t', ht, hg⟩ | ⟨hnil, hr, rfl⟩
      · rw [ht]
        split at hg
        · rename_i heq
          obtain ⟨hr, rfl⟩ := hg
          rw [hr, heq]
          have hv : B64charsText term (rest + 1) buf (some (some (buf ++ []))) ([] ++ [term]) u :=
            .value (fun c hc => absurd hc List.not_mem_nil) (Nat.zero_le _)
          rw [List.append_nil] at hv
          exact hv
        · rename_i hne
          split at hg
          · rename_i hbad
            obtain ⟨hr, rfl⟩ := hg
            rw [hr]
            refine @B64charsText.bad _ _ _ [] _ _ (fun c hc => absurd hc List.not_mem_nil) hne
              (.inr ⟨Nat.succ_pos rest, ?_⟩)
            exact Bool.eq_false_iff.mpr hbad
          · rename_i hb
            exact .cons hne (not_not.mp hb) hg
      · rw [hr, show u = [] from hnil]
        exact .eof (fun c hc => absurd hc List.not_mem_nil) (Nat.zero_le _)
    · intro hg
      cases hg with
      | value hw hlen =>
        rename_i w
        cases w with
        | nil =>
          refine .inl ⟨term, [], rfl, ?_⟩
          rw [if_pos rfl, List.append_nil]
          exact ⟨rfl, rfl⟩
        | cons c w =>
          obtain ⟨⟨hne, hb⟩, hw'⟩ := List.forall_mem_cons.mp hw
          refine .inl ⟨c, w ++ [term], rfl, ?_⟩
          rw [if_neg hne, if_neg (not_not.mpr hb), show buf ++ c :: w = buf ++ [c] ++ w by simp]
          exact .value hw' (Nat.le_of_succ_le_succ hlen)
      | eof hw hlen =>
        cases t with
        | nil => exact .inr ⟨rfl, rfl, rfl⟩
        | cons c w =>
          obtain ⟨⟨hne, hb⟩, hw'⟩ := List.forall_mem_cons.mp hw
          refine .inl ⟨c, w, rfl, ?_⟩
          rw [if_neg hne, if_neg (not_not.mpr hb)]
          exact .eof hw' (Nat.le_of_succ_le_succ hlen)
      | bad hw hc hlen =>
        rename_i w c
        cases w with
        | nil =>
          refine .inl ⟨c, [], rfl, ?_⟩
          rcases hlen with hlen | ⟨-, hbad⟩
          · cases hlen
          · rw [if_neg hc, if_pos (Bool.eq_false_iff.mp hbad)]
            exact ⟨rfl, rfl⟩
        | cons x w =>
          obtain ⟨⟨hne, hb⟩, hw'⟩ := List.forall_mem_cons.mp hw
          refine .inl ⟨x, w ++ [c], rfl, ?_⟩
          rw [if_neg hne, if_neg (not_not.mpr hb)]
          refine .bad hw' hc ?_
          rcases hlen with hlen | ⟨hlen, hbad⟩
          · exact .inl (Nat.succ.inj hlen)
          · exact .inr ⟨Nat.lt_of_succ_lt_succ hlen, hbad⟩

omit hd in
/-- A text of whole bytes decodes to a value of a size that leaves two or
three characters in the last group only if it is the value's text. -/
theorem decode_value {n : Nat} (hn : n % 3 ≠ 0) {text : List UInt8} {out : Bytes n} :
    (base64decode text false).bind (Bytes.ofList? n) = some out ↔
      text = base64encode out.val false := by
  constructor
  · intro hbind
    obtain ⟨d, hdec, hof⟩ := Option.bind_eq_some_iff.mp hbind
    have hd : d = out.val := by
      unfold Bytes.ofList? at hof
      split at hof
      · rw [← Option.some.inj hof]
      · cases hof
    obtain ⟨lone, htext, hlone⟩ := plain_of_base64decode hdec
    rcases hlone with rfl | ⟨c, rfl, -, hmod⟩
    · rw [htext, List.append_nil, hd]
    · have hlen := length_plain d
      have hdn : d.length = n := by rw [hd, out.size_eq]
      rw [hdn, if_pos hn] at hlen
      omega
  · intro htext
    rw [htext, base64decode_encode]
    exact Bytes.ofList?_val out

omit hd in
theorem b64char_of_sextet (c : UInt8) : sextet c = true → b64char c = true :=
  forall_byte (p := fun c => sextet c = true → b64char c = true) (by decide +kernel) c

/-- What `getb64seq` makes of what was read. -/
def seqOf (rawlen : Nat) : Option (Option (List UInt8)) → B64seq rawlen
  | none => .ioerr
  | some none => .invalid
  | some (some buf) => ((base64decode buf false).bind (Bytes.ofList? rawlen)).elim .invalid .value

theorem recognizes_getb64seq (rawlen : Nat) (term : UInt8) :
    Recognizes At h (getb64seq rawlen term) fun r t u =>
      ∃ x, B64charsText term (B64EBUFLEN rawlen) [] x t u ∧ r = seqOf rawlen x := by
  unfold getb64seq
  refine Recognizes.congr (.bind_to (fun x r t _ => r = seqOf rawlen x ∧ t = [])
    (recognizes_b64chars hd term (B64EBUFLEN rawlen) []) fun x => ?_) fun r t u => ?_
  · rcases x with _ | _ | buf
    · exact .pure _
    · exact .pure _
    · simp only [seqOf]
      rcases (base64decode buf false).bind (Bytes.ofList? rawlen) with _ | out
      · exact .pure _
      · exact .pure _
  · constructor
    · rintro ⟨x, t₁, t₂, ht, hx, hr, hnil⟩
      rw [hnil, List.append_nil] at ht
      rw [hnil] at hx
      exact ⟨x, by rw [ht]; exact hx, hr⟩
    · rintro ⟨x, hx, hr⟩
      exact ⟨x, t, [], (List.append_nil t).symm, hx, hr, rfl⟩

/-- The value's text, and the terminator. -/
theorem recognizes_b64value {rawlen : Nat} (hn : rawlen % 3 ≠ 0) {term : UInt8}
    (hterm : sextet term = false) (einval : String) :
    Recognizes At h (b64value rawlen term einval) fun out t _ =>
      t = base64encode out.val false ++ [term] := by
  unfold b64value
  refine Recognizes.congr (.bind_to (fun r out t _ => r = .value out ∧ t = [])
    (recognizes_getb64seq hd rawlen term) fun r => ?_) fun out t u => ?_
  · cases r with
    | ioerr => exact recognizes_failed.congr fun out t u => by simp
    | invalid => exact (Recognizes.throw einval).congr fun out t u => by simp
    | value out => exact (Recognizes.pure out).congr fun out' t u => by simp [eq_comm]
  · constructor
    · rintro ⟨r, t₁, t₂, ht, ⟨x, hx, hr⟩, hval, hnil⟩
      rw [hnil, List.append_nil] at ht
      rw [hval] at hr
      generalize t₂ ++ u = v at hx
      cases hx with
      | value hw hlen =>
        rename_i w
        rw [seqOf, List.nil_append] at hr
        have hbind : (base64decode w false).bind (Bytes.ofList? rawlen) = some out := by
          rcases hdec : (base64decode w false).bind (Bytes.ofList? rawlen) with _ | out'
          · rw [hdec] at hr
            cases hr
          · rw [hdec] at hr
            rw [B64seq.value.inj hr]
        rw [ht, (decode_value hn).mp hbind]
      | eof => cases hr
      | bad => cases hr
    · intro ht
      refine ⟨.value out, t, [], (List.append_nil t).symm,
        ⟨some (some (base64encode out.val false)), ?_, ?_⟩, rfl, rfl⟩
      · rw [ht]
        have hv : B64charsText term (B64EBUFLEN rawlen) []
            (some (some ([] ++ base64encode out.val false)))
            (base64encode out.val false ++ [term]) ([] ++ u) := by
          refine .value ?_ ?_
          · intro c hc
            have hsx := sextet_plain out.val c hc
            refine ⟨?_, b64char_of_sextet c hsx⟩
            intro heq
            rw [heq, hterm] at hsx
            cases hsx
          · rw [length_plain, out.size_eq, B64EBUFLEN]
        exact hv
      · rw [seqOf, (decode_value hn).mpr rfl]
        rfl

/-- The digits of a work factor, of which `buf` have been read. -/
def CostText (rest : Nat) (buf digits t : List UInt8) : Prop :=
  ∃ w, digits = buf ++ w ∧ t = w ++ [NL] ∧ w.length < rest ∧
    (∀ c ∈ w, 48 ≤ c ∧ c ≤ 57) ∧ digits ≠ [] ∧ digits.head? ≠ some 48

theorem recognizes_costDigits (rest : Nat) (buf : List UInt8) :
    Recognizes At h (costDigits rest buf) fun digits t _ => CostText rest buf digits t := by
  induction rest generalizing buf with
  | zero =>
    unfold costDigits
    refine (Recognizes.throw _).congr fun digits t u => ?_
    constructor
    · intro hno
      exact hno.elim
    · rintro ⟨w, -, -, hlen, -⟩
      exact absurd hlen (Nat.not_lt_zero _)
  | succ rest ih =>
    unfold costDigits
    refine Recognizes.congr (recognizes_readc hd (.throw _) fun c => .ite
      (.ite (.throw _) (.pure _)) (.ite (.throw _) (ih (buf ++ [c])))) fun digits t u => ?_
    constructor
    · rintro ⟨c, t', ht, hg⟩
      split at hg
      · rename_i hnl
        split at hg
        · exact hg.elim
        · rename_i hhead
          obtain ⟨hdig, rfl⟩ := hg
          refine ⟨[], by rw [hdig, List.append_nil], by rw [ht, hnl]; rfl, Nat.succ_pos rest,
            fun c hc => absurd hc List.not_mem_nil, ?_, ?_⟩
          · intro hnil
            rw [← hdig, hnil] at hhead
            exact hhead (.inl rfl)
          · intro hzero
            rw [← hdig] at hhead
            exact hhead (.inr hzero)
      split at hg
      · exact hg.elim
      · rename_i hrange
        obtain ⟨w, hdig, ht', hlen, hw, hne, hhead⟩ := hg
        refine ⟨c :: w, by rw [hdig, List.append_assoc]; rfl, by rw [ht, ht']; rfl,
          Nat.succ_lt_succ hlen, List.forall_mem_cons.mpr ⟨not_not.mp hrange, hw⟩, hne, hhead⟩
    · rintro ⟨w, hdig, ht, hlen, hw, hne, hhead⟩
      cases w with
      | nil =>
        rw [List.append_nil] at hdig
        refine ⟨NL, [], ht, ?_⟩
        rw [← hdig, if_pos rfl, if_neg]
        · exact ⟨rfl, rfl⟩
        · intro hor
          rcases hor with hnone | hzero
          · exact hne (List.head?_eq_none_iff.mp hnone)
          · exact hhead hzero
      | cons c w =>
        obtain ⟨hc, hw'⟩ := List.forall_mem_cons.mp hw
        refine ⟨c, w ++ [NL], ht, ?_⟩
        have hnl : c ≠ NL := by
          intro hnl
          rw [hnl] at hc
          exact absurd hc.1 (by decide)
        rw [if_neg hnl, if_neg (not_not.mpr hc)]
        exact ⟨w, by rw [hdig, List.append_assoc]; rfl, rfl, Nat.lt_of_succ_lt_succ hlen, hw', hne,
          hhead⟩

theorem recognizes_scryptcost :
    Recognizes At h scryptcost fun cost t _ => ∃ digits, WorkFactor digits ∧
      cost = atoi digits ∧ t = digits ++ [NL] := by
  unfold scryptcost
  refine Recognizes.congr ((recognizes_costDigits hd 5 []).bind fun buf => .pure _)
    fun cost t u => ?_
  constructor
  · rintro ⟨digits, t₁, t₂, ht, ⟨w, hdig, ht₁, hlen, hw, hne, hhead⟩, hcost, hnil⟩
    rw [List.nil_append] at hdig
    rw [hnil, List.append_nil, ht₁, ← hdig] at ht
    rw [← hdig] at hlen hw
    exact ⟨digits, ⟨hne, Nat.le_of_lt_succ hlen, hw, hhead⟩, hcost, ht⟩
  · rintro ⟨digits, ⟨hne, hlen, hw, hhead⟩, hcost, ht⟩
    exact ⟨digits, t, [], (List.append_nil t).symm,
      ⟨digits, rfl, ht, Nat.lt_succ_of_le hlen, hw, hne, hhead⟩, hcost, rfl⟩

theorem recognizes_getscrypt :
    Recognizes At h getscrypt fun arg t _ => ∃ digits, WorkFactor digits ∧
      arg.cost = atoi digits ∧
      t = base64encode arg.salt.val false ++ [SP] ++ digits ++ [NL] ++
        base64encode arg.body.val false ++ [NL] := by
  unfold getscrypt
  refine Recognizes.congr ((recognizes_b64value hd (by decide) (by decide) _).bind fun salt =>
    (recognizes_scryptcost hd).bind fun cost =>
      (recognizes_b64value hd (by decide) (by decide) _).bind fun body => .pure _) fun arg t u => ?_
  constructor
  · rintro ⟨salt, t₁, t₂, ht, ht₁, cost, t₃, t₄, ht₂, ⟨digits, hwork, hcost, ht₃⟩, body, t₅,
      t₆, ht₄, ht₅, harg, hnil⟩
    refine ⟨digits, hwork, by rw [harg, hcost], ?_⟩
    rw [ht, ht₁, ht₂, ht₃, ht₄, ht₅, hnil, harg]
    simp
  · rintro ⟨digits, hwork, hcost, ht⟩
    refine ⟨arg.salt, _, digits ++ [NL] ++ (base64encode arg.body.val false ++ [NL]), ?_, rfl,
      arg.cost, _, base64encode arg.body.val false ++ [NL], rfl, ⟨digits, hwork, hcost, rfl⟩,
      arg.body, _, [], (List.append_nil _).symm, rfl, rfl, rfl⟩
    rw [ht]
    simp

theorem recognizes_getx25519 :
    Recognizes At h getx25519 fun arg t _ =>
      t = base64encode arg.share.val false ++ [NL] ++ base64encode arg.body.val false ++ [NL] := by
  unfold getx25519
  refine Recognizes.congr ((recognizes_b64value hd (by decide) (by decide) _).bind fun share =>
    (recognizes_b64value hd (by decide) (by decide) _).bind fun body => .pure _) fun arg t u => ?_
  constructor
  · rintro ⟨share, t₁, t₂, ht, ht₁, body, t₃, t₄, ht₂, ht₃, harg, hnil⟩
    rw [ht, ht₁, ht₂, ht₃, hnil, harg]
    simp
  · intro ht
    refine ⟨arg.share, _, base64encode arg.body.val false ++ [NL], ?_, rfl, arg.body, _, [],
      (List.append_nil _).symm, rfl, rfl, rfl⟩
    rw [ht]
    simp

/-! ## Stanzas -/

theorem recognizes_getargspace : Recognizes At h getargspace fun _ t _ => t = [SP] := by
  unfold getargspace
  refine Recognizes.congr (recognizes_readc hd (.throw _) fun c => .ite (.throw _) (.pure _))
    fun a t u => ?_
  constructor
  · rintro ⟨c, t', ht, hg⟩
    split at hg
    · exact hg.elim
    · rename_i hsp
      rw [ht, hg.2, not_not.mp hsp]
  · intro ht
    exact ⟨SP, [], ht, by simp⟩

theorem recognizes_skipspace : Recognizes At h skipspace fun _ t _ => t = [SP] := by
  unfold skipspace
  refine Recognizes.congr (recognizes_readc hd (.throw _) fun c => .ite (.throw _) (.pure _))
    fun a t u => ?_
  constructor
  · rintro ⟨c, t', ht, hg⟩
    split at hg
    · exact hg.elim
    · rename_i hsp
      rw [ht, hg.2, not_not.mp hsp]
  · intro ht
    exact ⟨SP, [], ht, by simp⟩

theorem recognizes_getmac :
    Recognizes At h getmac fun mac t _ => t = [SP] ++ base64encode mac.val false ++ [NL] := by
  unfold getmac
  refine Recognizes.congr ((recognizes_skipspace hd).bind fun _ =>
    recognizes_b64value hd (by decide) (by decide) _) fun mac t u => ?_
  constructor
  · rintro ⟨_, t₁, t₂, ht, ht₁, ht₂⟩
    rw [ht, ht₁, ht₂]
    simp
  · intro ht
    exact ⟨(), [SP], base64encode mac.val false ++ [NL], by rw [ht]; simp, rfl, rfl⟩

/-- The text behind the type of a stanza that is skipped. -/
def SkipText (args lines : List (List UInt8)) (last t : List UInt8) : Prop :=
  (∀ arg ∈ args, arg ≠ [] ∧ Visible arg) ∧
    (∀ line ∈ lines, line.length = 64 ∧ base64decode line false ≠ none) ∧
    last.length < 64 ∧ base64decode last false ≠ none ∧
    t = spaced args ++ [NL] ++ fullLines lines ++ last ++ [NL]

omit hd in
theorem SkipText.atEnd {args lines : List (List UInt8)} {last t : List UInt8}
    (hs : SkipText args lines last t) (u : List UInt8) : AtEnd (t ++ u) := by
  obtain ⟨-, -, -, -, ht⟩ := hs
  cases args with
  | nil => exact ⟨NL, by rw [ht]; rfl, .inr rfl⟩
  | cons arg args => exact ⟨SP, by rw [ht]; rfl, .inl rfl⟩

theorem recognizes_getunknown :
    Recognizes At h getunknown fun s t _ => s = some .unknown ∧
      ∃ args lines last, SkipText args lines last t := by
  unfold getunknown
  refine Recognizes.congr ((recognizes_skipstanza hd).bind fun _ => .pure _) fun s t u => ?_
  constructor
  · rintro ⟨_, t₁, t₂, ht, ⟨args, body, hargs, ⟨lines, last, hlines, hlen, hdec, hbody⟩, ht₁⟩, hs,
      hnil⟩
    refine ⟨hs, args, lines, last, hargs, hlines, hlen, hdec, ?_⟩
    rw [ht, ht₁, hnil, hbody]
    simp
  · rintro ⟨hs, args, lines, last, hargs, hlines, hlen, hdec, ht⟩
    refine ⟨(), t, [], (List.append_nil t).symm, ⟨args, fullLines lines ++ last ++ [NL], hargs,
      ⟨lines, last, hlines, hlen, hdec, rfl⟩, ?_⟩, hs, rfl⟩
    rw [ht]
    simp

/-- What `getstanza` reads behind `-> `. -/
def TailText (s : Option Stanza) (t : List UInt8) : Prop :=
  ∃ form : StanzaForm, form.Accepted ∧ s = some form.stanza ∧ t = form.tail

omit hd in
theorem tailText_other {type args lines last t} (hforeign : Foreign type) (hvis : Visible type)
    (hs : SkipText args lines last t) : TailText (some .unknown) (type ++ t) := by
  obtain ⟨hargs, hlines, hlen, hdec, ht⟩ := hs
  refine ⟨.other type args lines last, ⟨hforeign, hvis, hargs, hlines, hlen, hdec⟩, rfl, ?_⟩
  rw [ht, StanzaForm.tail]
  simp

omit hd in
/-- The accepted forms, by the type. -/
theorem tailText_cases {s : Option Stanza} {t : List UInt8} (ht : TailText s t) :
    (∃ arg digits, WorkFactor digits ∧ arg.cost = atoi digits ∧ s = some (.scrypt arg) ∧
        t = argscrypt ++ ([SP] ++ (base64encode arg.salt.val false ++ [SP] ++ digits ++ [NL] ++
          base64encode arg.body.val false ++ [NL]))) ∨
      (∃ arg, s = some (.x25519 arg) ∧
        t = argx25519 ++ ([SP] ++ (base64encode arg.share.val false ++ [NL] ++
          base64encode arg.body.val false ++ [NL]))) ∨
      ∃ type args lines last t', Foreign type ∧ Visible type ∧ SkipText args lines last t' ∧
        s = some .unknown ∧ t = type ++ t' := by
  obtain ⟨form, hacc, hs, ht⟩ := ht
  cases form with
  | x25519 share body =>
    refine .inr (.inl ⟨⟨share, body⟩, hs, ?_⟩)
    rw [ht, StanzaForm.tail]
    simp
  | scrypt salt digits body =>
    refine .inl ⟨⟨salt, body, atoi digits⟩, digits, hacc, rfl, hs, ?_⟩
    rw [ht, StanzaForm.tail]
    simp
  | other type args lines last =>
    obtain ⟨hforeign, hvis, hargs, hlines, hlen, hdec⟩ := hacc
    refine .inr (.inr ⟨type, args, lines, last, _, hforeign, hvis,
      ⟨hargs, hlines, hlen, hdec, rfl⟩, hs, ?_⟩)
    rw [ht, StanzaForm.tail]
    simp

/-- What follows the type, once `getarg` has read it or the first six
characters of it. -/
def TypeText (arg : List UInt8) (full : Bool) (s : Option Stanza) (t u : List UInt8) : Prop :=
  if full = false then
    ∃ w args lines last t', t = w ++ t' ∧ Visible w ∧ AtEnd (t' ++ u) ∧ s = some .unknown ∧
      SkipText args lines last t'
  else if arg = argscrypt then
    ∃ a digits, WorkFactor digits ∧ a.cost = atoi digits ∧ s = some (.scrypt a) ∧
      t = [SP] ++ (base64encode a.salt.val false ++ [SP] ++ digits ++ [NL] ++
        base64encode a.body.val false ++ [NL])
  else if arg = argx25519 then
    ∃ a, s = some (.x25519 a) ∧
      t = [SP] ++ (base64encode a.share.val false ++ [NL] ++ base64encode a.body.val false ++ [NL])
  else ∃ args lines last, s = some .unknown ∧ SkipText args lines last t

omit hd in
/-- The type that was read, with what follows it, is an accepted form; and
every accepted form begins with a type that is read so. -/
theorem typeText_iff {s : Option Stanza} {t u : List UInt8} :
    (∃ arg full t₁ t₂, t = t₁ ++ t₂ ∧ arg = t₁ ∧ GetargText 6 t₁ (t₂ ++ u) full ∧
      TypeText arg full s t₂ u) ↔ TailText s t := by
  constructor
  · rintro ⟨arg, full, t₁, t₂, rfl, rfl, ⟨hvis, c, hc, hcase⟩, hg⟩
    cases full with
    | false =>
      obtain ⟨w, args, lines, last, t', rfl, hw, hend, rfl, hskip⟩ := hg
      obtain ⟨hlen, hmore⟩ : arg.length = 6 ∧ ¬ (c = SP ∨ c = NL) := by simpa using hcase
      have hlong : 0 < w.length := by
        cases w with
        | nil =>
          obtain ⟨c', hc', hend'⟩ := hend
          rw [List.nil_append] at hc
          rw [hc] at hc'
          rw [Option.some.inj hc'] at hmore
          exact absurd hend' hmore
        | cons x w => exact Nat.succ_pos _
      rw [← List.append_assoc]
      refine tailText_other ?_ ?_ hskip
      · constructor
        · intro heq
          have := congrArg List.length heq
          rw [List.length_append, show argscrypt.length = 6 by decide] at this
          omega
        · intro heq
          have := congrArg List.length heq
          rw [List.length_append, show argx25519.length = 6 by decide] at this
          omega
      · intro x hx
        exact (List.mem_append.mp hx).elim (hvis x) (hw x)
    | true =>
      rw [TypeText, if_neg (by decide)] at hg
      split at hg
      · rename_i heq
        obtain ⟨a, digits, hwork, hcost, rfl, rfl⟩ := hg
        refine ⟨.scrypt a.salt digits a.body, hwork, ?_, ?_⟩
        · rw [StanzaForm.stanza, ← hcost]
        · rw [heq, StanzaForm.tail]
          simp
      split at hg
      · rename_i heq
        obtain ⟨a, rfl, rfl⟩ := hg
        refine ⟨.x25519 a.share a.body, trivial, rfl, ?_⟩
        rw [heq, StanzaForm.tail]
        simp
      · rename_i hne hne'
        obtain ⟨args, lines, last, rfl, hskip⟩ := hg
        exact tailText_other ⟨hne, hne'⟩ hvis hskip
  · intro ht
    rcases tailText_cases ht with ⟨arg, digits, hwork, hcost, hs, rfl⟩ | ⟨arg, hs, rfl⟩ |
      ⟨type, args, lines, last, t', hforeign, hvis, hskip, hs, rfl⟩
    · refine ⟨argscrypt, true, argscrypt, _, rfl, rfl, ⟨by decide +kernel, SP, rfl,
        .inl ⟨rfl, by decide, .inl rfl⟩⟩, ?_⟩
      rw [TypeText, if_neg (by decide), if_pos rfl]
      exact ⟨arg, digits, hwork, hcost, hs, rfl⟩
    · refine ⟨argx25519, true, argx25519, _, rfl, rfl, ⟨by decide +kernel, SP, rfl,
        .inl ⟨rfl, by decide, .inl rfl⟩⟩, ?_⟩
      rw [TypeText, if_neg (by decide), if_neg (by decide), if_pos rfl]
      exact ⟨arg, hs, rfl⟩
    · by_cases hlen : type.length ≤ 6
      · obtain ⟨c, hc, hend⟩ := hskip.atEnd u
        refine ⟨type, true, type, t', rfl, rfl, ⟨hvis, c, hc, .inl ⟨rfl, hlen, hend⟩⟩, ?_⟩
        rw [TypeText, if_neg (by decide), if_neg hforeign.1, if_neg hforeign.2]
        exact ⟨args, lines, last, hs, hskip⟩
      · -- a long type is read in two parts
        have hne : type.drop 6 ≠ [] := by
          rw [← List.length_pos_iff, List.length_drop]
          omega
        obtain ⟨x, w, hw⟩ := List.exists_cons_of_ne_nil hne
        have hx : vchar x = true := by
          apply hvis
          apply List.mem_of_mem_drop
          rw [hw]
          exact List.mem_cons_self
        refine ⟨type.take 6, false, type.take 6, type.drop 6 ++ t', ?_, rfl, ⟨?_, x, ?_, .inr ⟨rfl,
          ?_, vchar_ne hx⟩⟩, ?_⟩
        · rw [← List.append_assoc, List.take_append_drop]
        · exact fun c hc => hvis c (List.mem_of_mem_take hc)
        · rw [hw]
          rfl
        · rw [List.length_take]
          omega
        · rw [TypeText, if_pos rfl]
          exact ⟨type.drop 6, args, lines, last, t', rfl,
            fun c hc => hvis c (List.mem_of_mem_drop hc), hskip.atEnd u, hs, hskip⟩

/-- `getstanza` behind `getarg`. -/
theorem recognizes_typed (arg : List UInt8) (full : Bool) :
    Recognizes At h (if ¬ full then do
        skiparg
        getunknown
      else if arg = argscrypt then do
        getargspace
        let s ← getscrypt
        return some (Stanza.scrypt s)
      else if arg = argx25519 then do
        getargspace
        let s ← getx25519
        return some (Stanza.x25519 s)
      else getunknown) (TypeText arg full) := by
  refine Recognizes.congr (.ite ((recognizes_skiparg hd).bind fun _ => recognizes_getunknown hd)
    (.ite
      ((recognizes_getargspace hd).bind fun _ => (recognizes_getscrypt hd).bind fun s => .pure _)
      (.ite
        ((recognizes_getargspace hd).bind fun _ => (recognizes_getx25519 hd).bind fun s => .pure _)
        (recognizes_getunknown hd)))) fun s t u => ?_
  unfold TypeText
  simp only [Bool.not_eq_true]
  split
  · constructor
    · rintro ⟨_, w, t', ht, ⟨hw, hend⟩, hs, args, lines, last, hskip⟩
      exact ⟨w, args, lines, last, t', ht, hw, hend, hs, hskip⟩
    · rintro ⟨w, args, lines, last, t', ht, hw, hend, hs, hskip⟩
      exact ⟨(), w, t', ht, ⟨hw, hend⟩, hs, args, lines, last, hskip⟩
  split
  · constructor
    · rintro ⟨_, t₁, t₂, ht, ht₁, a, t₃, t₄, ht₂, ⟨digits, hwork, hcost, ht₃⟩, hs, hnil⟩
      refine ⟨a, digits, hwork, hcost, hs, ?_⟩
      rw [ht, ht₁, ht₂, ht₃, hnil, List.append_nil]
    · rintro ⟨a, digits, hwork, hcost, hs, ht⟩
      exact ⟨(), [SP], _, ht, rfl, a, _, [], (List.append_nil _).symm,
        ⟨digits, hwork, hcost, rfl⟩, hs, rfl⟩
  split
  · constructor
    · rintro ⟨_, t₁, t₂, ht, ht₁, a, t₃, t₄, ht₂, ht₃, hs, hnil⟩
      refine ⟨a, hs, ?_⟩
      rw [ht, ht₁, ht₂, ht₃, hnil, List.append_nil]
    · rintro ⟨a, hs, ht⟩
      exact ⟨(), [SP], _, ht, rfl, a, _, [], (List.append_nil _).symm, rfl, hs, rfl⟩
  · constructor
    · rintro ⟨hs, args, lines, last, hskip⟩
      exact ⟨args, lines, last, hs, hskip⟩
    · rintro ⟨args, lines, last, hs, hskip⟩
      exact ⟨hs, args, lines, last, hskip⟩

/-- What `getstanza` reads. -/
def StanzaText (s : Option Stanza) (t : List UInt8) : Prop :=
  (s = none ∧ t = stanzaEnd) ∨
    ∃ form : StanzaForm, form.Accepted ∧ s = some form.stanza ∧ t = form.text

theorem recognizes_getstanza : Recognizes At h getstanza fun s t _ => StanzaText s t := by
  unfold getstanza
  refine Recognizes.congr (recognizes_bread hd fun buf => .ite (.throw _) (.ite (.pure _)
    (.ite (.throw _) (.bind_to (fun r => TypeText r.1 r.2) (recognizes_getarg hd _ _) fun r =>
      recognizes_typed hd r.1 r.2)))) fun s t u => ?_
  constructor
  · rintro ⟨buf, t', ht, -, hg⟩
    split at hg
    · exact hg.elim
    split at hg
    · rename_i hend
      obtain ⟨hs, hnil⟩ := hg
      exact .inl ⟨hs, by rw [ht, hnil, hend, List.append_nil]⟩
    split at hg
    · exact hg.elim
    · rename_i hbegin
      obtain ⟨⟨arg, full⟩, t₁, t₂, ht', ⟨harg, htype⟩, hs⟩ := hg
      rw [List.nil_append] at harg
      obtain ⟨form, hacc, hs, htail⟩ := typeText_iff.mp ⟨arg, full, t₁, t₂, ht', harg, htype, hs⟩
      refine .inr ⟨form, hacc, hs, ?_⟩
      rw [ht, not_not.mp hbegin, htail, StanzaForm.text]
  · rintro (⟨hs, ht⟩ | ⟨form, hacc, hs, ht⟩)
    · refine ⟨stanzaEnd, [], by rw [ht, List.append_nil], by rw [ht]; rfl, ?_⟩
      rw [if_neg (by decide), if_pos rfl]
      exact ⟨hs, rfl⟩
    · refine ⟨stanzaBegin, form.tail, ht, by rw [ht]; rfl, ?_⟩
      rw [if_neg (by decide), if_neg (by decide), if_neg (by decide)]
      obtain ⟨arg, full, t₁, t₂, ht', harg, htype, hs⟩ :=
        (typeText_iff (u := u)).mpr ⟨form, hacc, hs, rfl⟩
      exact ⟨(arg, full), t₁, t₂, ht', ⟨harg, htype⟩, hs⟩

end

end Agecrypt
