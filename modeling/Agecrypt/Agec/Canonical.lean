import Agecrypt.Agec.ArmorReads

/-!
# Which armored texts are canonical

An accepted text is the ending line behind blocks that decode one by one
(`Accepted`).  The text that an armored output makes of the decoded bytes is
one of those that are accepted, and `CanonicalBody` tells it from the others:
the body ends in a newline, its last line is not empty, and there is no
padding but at its end.  `base64decode` leaves the last character of a block
open, and it accepts padding at the end of every block.
-/

namespace Agecrypt

/-! ## Accepted texts -/

/-- The bytes that a body decodes to, in blocks of 8190 characters. -/
inductive Accepted : List UInt8 → List UInt8 → Prop
  | last {body d : List UInt8} : base64decode body true = some d → Accepted body d
  | block {blk body out d : List UInt8} : blk.length = IOABUFREADSIZE →
      base64decode blk true = some out → Accepted body d → Accepted (blk ++ body) (out ++ d)

theorem decodeBlock_last {blk out : List UInt8} {more : Bool}
    (h : decodeBlock blk more = some (out, true)) :
    more = false ∧ ∃ body, blk = body ++ armorlast ∧ base64decode body true = some out := by
  unfold decodeBlock at h
  rcases endcheck_zero (fun _ => 0) blk with ⟨body, rfl, he⟩ | ⟨-, ⟨-, -, he⟩ | ⟨k, -, he, -⟩⟩
  · rw [he] at h
    cases more with
    | true => cases h
    | false =>
      obtain ⟨o, ho, hout⟩ := Option.map_eq_some_iff.mp h
      obtain ⟨rfl, -⟩ := Prod.mk.inj hout
      rw [List.length_append, Nat.add_sub_cancel, List.take_left] at ho
      exact ⟨rfl, body, rfl, ho⟩
  · rw [he] at h
    obtain ⟨o, -, hout⟩ := Option.map_eq_some_iff.mp h
    cases (Prod.mk.inj hout).2
  · rw [he] at h
    cases h

theorem decodeBlock_more {blk out : List UInt8} {more : Bool}
    (h : decodeBlock blk more = some (out, false)) : base64decode blk true = some out := by
  unfold decodeBlock at h
  rcases endcheck_zero (fun _ => 0) blk with ⟨body, rfl, he⟩ | ⟨-, ⟨-, -, he⟩ | ⟨k, -, he, -⟩⟩
  · rw [he] at h
    cases more with
    | true => cases h
    | false =>
      obtain ⟨o, -, hout⟩ := Option.map_eq_some_iff.mp h
      cases (Prod.mk.inj hout).2
  · rw [he] at h
    obtain ⟨o, ho, hout⟩ := Option.map_eq_some_iff.mp h
    rw [← (Prod.mk.inj hout).1]
    exact ho
  · rw [he] at h
    cases h

/-- An accepted text ends in the ending line. -/
theorem accepted_of_unarmor (n : Nat) : ∀ {text : List UInt8}, text.length ≤ n →
    (unarmor text).2 = true →
    ∃ body, text = body ++ armorlast ∧ Accepted body (unarmor text).1 := by
  induction n with
  | zero =>
    intro text hlen hok
    rw [List.length_eq_zero_iff.mp (Nat.le_zero.mp hlen), unarmor_nil] at hok
    cases hok
  | succ n ih =>
    intro text hlen hok
    have hne : text ≠ [] := by
      rintro rfl
      rw [unarmor_nil] at hok
      cases hok
    have hpos := List.length_pos_iff.mpr hne
    rw [unarmor_block hne] at hok ⊢
    cases hb : decodeBlock (text.take IOABUFREADSIZE) (!(text.drop IOABUFREADSIZE).isEmpty) with
    | none =>
      rw [hb] at hok
      cases hok
    | some x =>
      obtain ⟨out, last⟩ := x
      rw [hb] at hok
      cases last with
      | true =>
        obtain ⟨hmore, body, hblk, hdec⟩ := decodeBlock_last hb
        have hdrop : text.drop IOABUFREADSIZE = [] := by simpa using hmore
        refine ⟨body, ?_, .last hdec⟩
        rw [← hblk, ← List.append_nil (text.take _), ← hdrop, List.take_append_drop]
      | false =>
        have hdec := decodeBlock_more hb
        have hsize : (text.drop IOABUFREADSIZE).length ≤ n := by
          rw [List.length_drop, IOABUFREADSIZE]
          omega
        obtain ⟨body, hbody, hacc⟩ := ih hsize hok
        have hfull : (text.take IOABUFREADSIZE).length = IOABUFREADSIZE := by
          have hlast := congrArg List.length hbody
          rw [List.length_drop, List.length_append, length_armorlast] at hlast
          rw [List.length_take]
          omega
        refine ⟨text.take IOABUFREADSIZE ++ body, ?_, .block hfull hdec hacc⟩
        rw [List.append_assoc, ← hbody, List.take_append_drop]

theorem Accepted.nil {d : List UInt8} (h : Accepted [] d) : d = [] := by
  generalize hb : ([] : List UInt8) = body at h
  cases h with
  | last hdec =>
    rw [← hb] at hdec ⊢
    exact (Option.some.inj hdec).symm
  | block hlen =>
    obtain ⟨rfl, -⟩ := List.append_eq_nil_iff.mp hb.symm
    cases hlen

/-! ## Canonical bodies -/

/-- The body ends in a newline, behind characters of its last line, and only
its last three characters may be padding. -/
structure Lined (body : List UInt8) : Prop where
  newline : body.getLast? = some NL
  line : body.length % 65 ≠ 1
  pads : PAD ∉ body.take (body.length - 3)

/-- The body of a text that an armored output may write. -/
def CanonicalBody (body : List UInt8) : Prop := body = [] ∨ Lined body

/-- Encoding something else than full groups gives padding. -/
theorem pad_mem_base64encode {d : List UInt8} (h : d.length % 3 ≠ 0) :
    PAD ∈ base64encode d true := by
  have hmem : ∀ (g : Nat) (d : List UInt8), d.length % 3 ≠ 0 → PAD ∈ b64Text true g d := by
    intro g d
    induction g, d using b64Text.induct true with
    | case1 g hp => exact fun h => absurd rfl h
    | case2 g hp => simp at hp
    | case3 g a => simp [b64Text]
    | case4 g a b => simp [b64Text]
    | case5 g a b c cs ih =>
      intro h
      rw [b64Text]
      refine List.mem_append_right _ (ih ?_)
      rw [List.length_cons, List.length_cons, List.length_cons] at h
      omega
  rw [base64encode_eq]
  exact hmem 0 d h

theorem lined_armorText {d : List UInt8} (h : d ≠ []) : Lined (armorText d) := by
  rw [armorText_of_ne h]
  refine ⟨?_, base64encode_mod h, ?_⟩
  · rw [base64encode_eq]
    exact getLast_b64Text 0 d
  · obtain ⟨chars, tail, htext, htail, hpad⟩ := b64Text_pads 0 d
    rw [base64encode_eq, htext, List.length_append, List.take_append_of_le_length (by omega)]
    exact fun hmem => hpad (List.mem_of_mem_take hmem)

/-- A full block without padding has full lines of bytes. -/
theorem length_of_block {blk out : List UInt8} (hlen : blk.length = IOABUFREADSIZE)
    (henc : blk = base64encode out true) (hout : out ≠ []) (hpad : PAD ∉ blk) :
    out.length % 48 = 0 := by
  have hthree : out.length % 3 = 0 := by
    by_contra h
    exact hpad (henc ▸ pad_mem_base64encode h)
  have hl := length_base64encode hout
  rw [← henc, hlen, IOABUFREADSIZE] at hl
  omega

/-- Two characters do not decode. -/
theorem length_accepted {body d : List UInt8} (h : Accepted body d) (hline : body.length % 65 ≠ 1)
    (hne : body ≠ []) : 3 ≤ body.length := by
  have hpos := List.length_pos_iff.mpr hne
  cases h with
  | last hdec =>
    have hlast := (base64decode_eq_some.mp hdec).1
    by_contra hlt
    have htwo : body.length = 2 := by omega
    rw [lastLine, htwo] at hlast
    exact absurd hlast (by decide)
  | block hlen =>
    rw [List.length_append, hlen, IOABUFREADSIZE]
    omega

/-- A body in lines is the text of its bytes; the blocks before the last
hold no padding, so they are full lines. -/
theorem Accepted.eq_armorText_of_lined {body d : List UInt8} (h : Accepted body d)
    (hl : Lined body) : body = armorText d := by
  induction h with
  | @last body d hdec =>
    have henc := base64encode_decode hdec hl.newline hl.line
    have hne : d ≠ [] := by
      rintro rfl
      exact hl.line (by rw [henc]; rfl)
    rw [armorText_of_ne hne]
    exact henc
  | @block blk body out d hlen hdec hacc ih =>
    have hout := base64decode_ne_nil hdec (by rw [hlen]; decide)
    by_cases hbody : body = []
    · subst hbody
      rw [hacc.nil, List.append_nil, List.append_nil, armorText_of_ne hout]
      have hnewline := hl.newline
      rw [List.append_nil] at hnewline
      exact base64encode_decode hdec hnewline (by rw [hlen]; decide)
    · have hline : body.length % 65 ≠ 1 := by
        have hl := hl.line
        rw [List.length_append, hlen, IOABUFREADSIZE, Nat.mul_add_mod] at hl
        exact hl
      have hthree := length_accepted hacc hline hbody
      have hpads := hl.pads
      rw [List.length_append, Nat.add_sub_assoc hthree, List.take_length_add_append,
        List.mem_append, not_or] at hpads
      have hnewline := hl.newline
      rw [List.getLast?_append_of_ne_nil _ hbody] at hnewline
      have hblk := base64encode_decode hdec
        (nl_of_base64decode hdec (List.length_pos_iff.mp (by rw [hlen]; decide))
          (by rw [hlen]; rfl) hpads.1) (by rw [hlen]; decide)
      rw [armorText_append _ (length_of_block hlen hblk hout hpads.1), armorText_of_ne hout,
        ← hblk, ← ih ⟨hnewline, hline, hpads.2⟩]

/-- An accepted body is the text of its bytes if and only if it is
canonical. -/
theorem Accepted.eq_armorText_iff {body d : List UInt8} (h : Accepted body d) :
    body = armorText d ↔ CanonicalBody body := by
  constructor
  · intro heq
    by_cases hd : d = []
    · exact .inl (heq.trans (by rw [hd, armorText_nil]))
    · exact .inr (heq ▸ lined_armorText hd)
  · intro hc
    rcases hc with rfl | hl
    · rw [h.nil, armorText_nil]
    · exact h.eq_armorText_of_lined hl

/-! ## Reading to the end -/

/-- What stands between the header line and the ending line. -/
def armorBody (a : List UInt8) : List UInt8 :=
  (a.drop armorfirst.length).take (a.length - armorfirst.length - armorlast.length)

theorem armorBody_eq (body : List UInt8) :
    armorBody (armorfirst ++ (body ++ armorlast)) = body := by
  have hlen : (armorfirst ++ (body ++ armorlast)).length - armorfirst.length - armorlast.length =
      body.length := by
    rw [List.length_append, List.length_append]
    omega
  rw [armorBody, hlen, List.drop_left, List.take_left]

section

variable {δ : Type} [Descr δ] {ch : Chan δ} {io io' : Io δ} {rest : List UInt8} {ok : Bool}

/-- Calls of `bread` without an error deliver the bytes in order, and only
an accepted text ends. -/
theorem Ahead.breads (sizes : List Nat) : ∀ {io : Io δ} {rest : List UInt8}
    {chunks : List (List UInt8)}, Ahead ch io rest ok →
    Agecrypt.readCalls (sizes.map .bread) io = some (chunks.map (.bread ∘ some), io') →
    chunks.flatten = rest.take sizes.sum ∧ (rest.length < sizes.sum → ok = true) := by
  induction sizes with
  | nil =>
    intro io rest chunks h hrun
    have hnil := (Prod.mk.inj (Option.some.inj hrun)).1
    rw [List.map_eq_nil_iff.mp hnil.symm]
    exact ⟨rfl, fun hlt => absurd hlt (Nat.not_lt_zero _)⟩
  | cons n sizes ih =>
    intro io rest chunks h hrun
    rw [List.map_cons] at hrun
    rcases h.bread n with ⟨io₁, hb, -⟩ | ⟨io₁, hb, -, h₁, hshort⟩
    · rw [readCalls_cons (readCall_bread hb)] at hrun
      obtain ⟨x, -, heq⟩ := Option.map_eq_some_iff.mp hrun
      obtain ⟨bs, -, -, hbs, -⟩ := List.map_eq_cons_iff.mp (Prod.mk.inj heq).1.symm
      cases ReadAns.bread.inj hbs
    rw [readCalls_cons (readCall_bread hb)] at hrun
    obtain ⟨⟨as, io₂⟩, hcalls, heq⟩ := Option.map_eq_some_iff.mp hrun
    obtain ⟨has, rfl⟩ := Prod.mk.inj heq
    obtain ⟨bs, chunks, rfl, hbs, rfl⟩ := List.map_eq_cons_iff.mp has.symm
    obtain rfl : bs = rest.take n := Option.some.inj (ReadAns.bread.inj hbs)
    obtain ⟨hflat, hend⟩ := ih (.behind h₁) hcalls
    rw [List.flatten_cons, hflat, List.sum_cons, List.take_add]
    refine ⟨rfl, fun hlt => ?_⟩
    rcases Nat.lt_or_ge rest.length n with hn | hn
    · exact hshort hn
    · refine hend ?_
      rw [List.length_drop]
      omega

end

theorem ahead_start (m : Memory) (fi fo : Int) (recording isarmor : Bool) {dev : Dev}
    {text : List UInt8} (harm : dev.inp = armorfirst ++ text) :
    Ahead (devChan fi fo False) (m.start fi fo recording isarmor dev) (unarmor text).1
      (unarmor text).2 := .fresh trivial rfl rfl rfl rfl rfl rfl rfl harm

/-- An armored input that is read to its end is the armored text of the
bytes that were read, with the two lines around it, if and only if its body
is canonical. -/
theorem armored_exact_iff {m : Memory} {fi fo : Int} {recording isarmor : Bool} {dev : Dev}
    {sizes : List Nat} {chunks : List (List UInt8)} {io : Io Dev} (harm : armorfirst <+: dev.inp)
    (hrun : readCalls (sizes.map .bread) (m.start fi fo recording isarmor dev) =
      some (chunks.map (.bread ∘ some), io))
    (hend : chunks.flatten.length < sizes.sum) :
    dev.inp = armorfirst ++ (armorText chunks.flatten ++ armorlast) ↔
      CanonicalBody (armorBody dev.inp) := by
  obtain ⟨text, htext⟩ := harm
  obtain ⟨hflat, hok⟩ := (ahead_start m fi fo recording isarmor htext.symm).breads sizes hrun
  rw [hflat, List.length_take] at hend
  have hshort : (unarmor text).1.length < sizes.sum := by omega
  obtain ⟨body, rfl, hacc⟩ := accepted_of_unarmor text.length (Nat.le_refl _) (hok hshort)
  rw [hflat, List.take_of_length_le (Nat.le_of_lt hshort), ← htext, armorBody_eq,
    List.append_right_inj, List.append_left_inj]
  exact hacc.eq_armorText_iff

/-- `AA` with a newline behind its text, and with another character. -/
def neatText : List UInt8 := ascii "QUE=\n"

def bentText : List UInt8 := ascii "QUE=X"

theorem readCalls_short {body : List UInt8}
    (h : unarmor (body ++ armorlast) = ([65, 65], true)) :
    ∃ io, readCalls ([9].map .bread)
      (Memory.zero.start 3 4 true false (Dev.steady (armorfirst ++ (body ++ armorlast)) 99)) =
        some ([[65, 65]].map (.bread ∘ some), io) := by
  have hstart := ahead_start Memory.zero 3 4 true false
    (Dev.steady_inp (armorfirst ++ (body ++ armorlast)) 99)
  rw [h] at hstart
  exact hstart.readCalls [.bread 9] ⟨fun _ h => Event.noConfusion h, False.elim⟩

theorem armored_exact_iff_neat :
    armorfirst ++ (neatText ++ armorlast) = armorfirst ++ (armorText [65, 65] ++ armorlast) ↔
      CanonicalBody (armorBody (armorfirst ++ (neatText ++ armorlast))) := by
  obtain ⟨io, hrun⟩ := @readCalls_short neatText (by decide +kernel)
  exact armored_exact_iff (List.prefix_append _ _) hrun (by decide)

/-- The newline may be missing. -/
theorem bent_armor_accepted :
    ∃ io, readCalls ([9].map .bread)
        (Memory.zero.start 3 4 true false (Dev.steady (armorfirst ++ (bentText ++ armorlast)) 99)) =
          some ([[65, 65]].map (.bread ∘ some), io) ∧
      armorfirst ++ (bentText ++ armorlast) ≠ armorfirst ++ (armorText [65, 65] ++ armorlast) := by
  obtain ⟨io, hrun⟩ := @readCalls_short bentText (by decide +kernel)
  exact ⟨io, hrun, by decide +kernel⟩

end Agecrypt
