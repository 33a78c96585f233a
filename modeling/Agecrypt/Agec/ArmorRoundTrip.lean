import Agecrypt.Agec.Canonical

/-!
# Armored output read again

`unarmor_armorText` says which armored texts are accepted again.  The reader
looks for the ending line at the end of a block only, so the text is refused
when its last full block ends in a part of the ending line.  This depends on
the number of bytes alone: it happens when their last block of 6048 has
between 6022 and 6045 bytes.
-/

namespace Agecrypt

/-! ## No text holds a dash -/

/-- The first character of the ending line. -/
def DASH : UInt8 := 45

private theorem dash_decodeLoop {lastlen inlen : Nat} {rest : List UInt8} {st' : DecState}
    (xs : List UInt8) : ∀ {st : DecState},
    decodeLoop true lastlen inlen xs st = some (st', rest) →
    ∃ used, xs = used ++ rest ∧ DASH ∉ used := by
  induction xs with
  | nil =>
    intro st h
    obtain ⟨-, rfl⟩ := Prod.mk.inj (Option.some.inj h)
    exact ⟨[], rfl, List.not_mem_nil⟩
  | cons x xs ih =>
    intro st h
    have hstop : some (st, x :: xs) = some (st', rest) →
        ∃ used, x :: xs = used ++ rest ∧ DASH ∉ used := by
      intro he
      rw [← (Prod.mk.inj (Option.some.inj he)).2]
      exact ⟨[], rfl, List.not_mem_nil⟩
    have hgo : ∀ {st₁ : DecState}, x ≠ DASH →
        decodeLoop true lastlen inlen xs st₁ = some (st', rest) →
        ∃ used, x :: xs = used ++ rest ∧ DASH ∉ used := by
      intro st₁ hx hd
      obtain ⟨used, rfl, hused⟩ := ih hd
      exact ⟨x :: used, rfl, fun hm => (List.mem_cons.mp hm).elim (fun he => hx he.symm) hused⟩
    rw [decodeLoop] at h
    split at h
    · split at h
      · cases h
      · rename_i hnl
        refine hgo ?_ h
        rw [not_not.mp hnl]
        decide
    split at h
    · split at h
      · cases h
      · exact hstop h
    split at h
    · split at h
      · exact hstop h
      · cases h
    split at h
    · cases h
    · rename_i htab
      refine hgo ?_ h
      rintro rfl
      exact htab (by decide)

/-- A text with a dash in front of its last character is not decoded. -/
theorem dash_base64decode {text d : List UInt8} (h : base64decode text true = some d) :
    DASH ∉ text.dropLast := by
  obtain ⟨-, st, rest, hdec, hacc, -⟩ := base64decode_eq_some.mp h
  obtain ⟨used, rfl, hused⟩ := dash_decodeLoop text hdec
  by_cases hrest : rest = []
  · rw [hrest, List.append_nil]
    exact fun hm => hused (List.dropLast_subset _ hm)
  · rw [List.dropLast_append_of_ne_nil hrest]
    intro hm
    rcases List.mem_append.mp hm with hm | hm
    · exact hused hm
    · have hpad := List.all_eq_true.mp (hacc.pads rfl) DASH hm
      exact absurd hpad (by decide)

theorem dash_armorText (d : List UInt8) : DASH ∉ armorText d := by
  have hsext : ∀ v, v < 64 → DASH ≠ etableAt v := by
    intro v hv he
    have hs := sextet_etableAt v hv
    rw [← he] at hs
    exact absurd hs (by decide)
  have hbreak : ∀ g, DASH ∉ lineBreak true g := by
    intro g
    unfold lineBreak
    split
    · decide
    · exact List.not_mem_nil
  have htext : ∀ g (d : List UInt8), DASH ∉ b64Text true g d := by
    intro g d
    induction g, d using b64Text.induct true with
    | case1 g hp => rw [b64Text]; decide
    | case2 g hp => exact absurd rfl hp
    | case3 g a =>
      rw [b64Text, if_pos rfl]
      simp only [List.mem_append, List.mem_cons, List.not_mem_nil, or_false, not_or]
      exact ⟨⟨hbreak g, hsext _ (sext0_lt a), hsext _ (sext1_lt a 0)⟩, by decide, by decide,
        by decide⟩
    | case4 g a b =>
      rw [b64Text, if_pos rfl]
      simp only [List.mem_append, List.mem_cons, List.not_mem_nil, or_false, not_or]
      exact ⟨⟨hbreak g, hsext _ (sext0_lt a), hsext _ (sext1_lt a b), hsext _ (sext2_lt b 0)⟩,
        by decide, by decide⟩
    | case5 g a b c cs ih =>
      rw [b64Text]
      simp only [List.mem_append, List.mem_cons, List.not_mem_nil, or_false, not_or]
      exact ⟨⟨hbreak g, hsext _ (sext0_lt a), hsext _ (sext1_lt a b), hsext _ (sext2_lt b c),
        hsext _ (sext3_lt c)⟩, ih⟩
  unfold armorText
  split
  · exact List.not_mem_nil
  · rw [base64encode_eq]
    exact htext 0 d

/-! ## The blocks of the text -/

/-- The number of bytes of a full block. -/
def BLOCKBYTES : Nat := 48 * 126

theorem length_armorText (d : List UInt8) :
    (armorText d).length =
      if d = [] then 0 else 4 * ((d.length + 2) / 3) + ((d.length + 2) / 3 - 1) / 16 + 1 := by
  unfold armorText
  split
  · rfl
  · rename_i hd
    exact length_base64encode hd

/-- Where the ending line would start there is a character of the text. -/
theorem endcheck_text {d pre : List UInt8} (hlen : armorlast.length ≤ (armorText d ++ pre).length)
    (hpre : pre.length < armorlast.length) :
    endcheck (fun _ => 0) (armorText d ++ pre) 0 = (0, 0) := by
  have hhead : ((armorText d ++ pre).drop
      ((armorText d ++ pre).length - armorlast.length)).head? ≠ some DASH := by
    rw [List.length_append] at hlen ⊢
    rw [List.drop_append_of_le_length (by omega)]
    have hne : (armorText d).drop ((armorText d).length + pre.length - armorlast.length) ≠ [] := by
      rw [Ne, List.drop_eq_nil_iff]
      omega
    rw [List.head?_append_of_ne_nil _ hne]
    intro hm
    exact dash_armorText d (List.mem_of_mem_drop (List.mem_of_head? hm))
  rcases endcheck_zero (fun _ => 0) (armorText d ++ pre) with
    ⟨body, hbody, -⟩ | ⟨-, ⟨-, -, h⟩ | ⟨k, -, -, hk⟩⟩
  · rw [hbody, List.length_append, Nat.add_sub_cancel, List.drop_left] at hhead
    exact absurd rfl hhead
  · exact h
  · exact absurd (hk hlen) hhead

theorem base64decode_armorText {d : List UInt8} (hd : d ≠ []) :
    base64decode (armorText d) true = some d := by
  rw [armorText_of_ne hd]
  exact base64decode_encode true d

theorem decodeBlock_of_none {blk : List UInt8} (h : endcheck (fun _ => 0) blk 0 = (0, 0))
    (more : Bool) :
    decodeBlock blk more = (base64decode blk true).map fun out => (out, false) := by
  rw [decodeBlock, h]
  rfl

/-- A block of text without the ending line. -/
theorem decodeBlock_armorText {d : List UInt8} (hd : d ≠ [])
    (hlen : armorlast.length ≤ (armorText d).length) (more : Bool) :
    decodeBlock (armorText d) more = some (d, false) := by
  have hend := @endcheck_text d [] (by rw [List.append_nil]; exact hlen) (by decide)
  rw [List.append_nil] at hend
  rw [decodeBlock_of_none hend, base64decode_armorText hd, Option.map_some]

/-- A block of text with a part of the ending line. -/
theorem decodeBlock_partial {d pre : List UInt8} (hpre : pre.length < armorlast.length)
    (hdash : DASH ∈ pre.dropLast)
    (hlen : armorlast.length ≤ (armorText d ++ pre).length) (more : Bool) :
    decodeBlock (armorText d ++ pre) more = none := by
  rw [decodeBlock_of_none (endcheck_text hlen hpre), Option.map_eq_none_iff]
  by_contra hsome
  obtain ⟨out, hdec⟩ := Option.ne_none_iff_exists'.mp hsome
  have hne : pre ≠ [] := by
    rintro rfl
    cases hdash
  refine dash_base64decode hdec ?_
  rw [List.dropLast_append_of_ne_nil hne]
  exact List.mem_append_right _ hdash

/-- The last block, with the ending line. -/
theorem decodeBlock_ending (d : List UInt8) :
    decodeBlock (armorText d ++ armorlast) false = some (d, true) := by
  have hdec : base64decode (armorText d) true = some d := by
    by_cases hd : d = []
    · rw [hd]
      rfl
    · exact base64decode_armorText hd
  rcases endcheck_zero (fun _ => 0) (armorText d ++ armorlast) with ⟨body, -, h⟩ | ⟨hno, -⟩
  · rw [decodeBlock, h]
    show (base64decode ((armorText d ++ armorlast).take _) true).map _ = _
    rw [List.length_append, Nat.add_sub_cancel, List.take_left, hdec, Option.map_some]
  · exact absurd (List.suffix_append _ _) hno

/-- The text ends within one block. -/
theorem unarmor_ending {d : List UInt8}
    (hlen : (armorText d ++ armorlast).length ≤ IOABUFREADSIZE) :
    unarmor (armorText d ++ armorlast) = (d, true) := by
  have hne : armorText d ++ armorlast ≠ [] := by
    intro h
    cases (List.append_eq_nil_iff.mp h).2
  rw [unarmor_block hne, List.take_of_length_le hlen, List.drop_of_length_le hlen]
  show blockThen (decodeBlock (armorText d ++ armorlast) false) _ = _
  rw [decodeBlock_ending]
  rfl

/-- A block of text in front of more. -/
theorem unarmor_full {d rest : List UInt8} (hd : d ≠ [])
    (hlen : (armorText d).length = IOABUFREADSIZE) :
    unarmor (armorText d ++ rest) = (d ++ (unarmor rest).1, (unarmor rest).2) := by
  have hne : armorText d ++ rest ≠ [] := by
    intro h
    rw [(List.append_eq_nil_iff.mp h).1] at hlen
    cases hlen
  rw [unarmor_block hne, ← hlen, List.take_left, List.drop_left,
    decodeBlock_armorText hd (by rw [hlen]; decide)]
  rfl

/-- The text of fewer than 6048 bytes and the ending line. -/
theorem unarmor_lastBlock {d : List UInt8} (hd : d.length < BLOCKBYTES) :
    (d.length < 6022 ∨ 6045 < d.length → unarmor (armorText d ++ armorlast) = (d, true)) ∧
    (¬ (d.length < 6022 ∨ 6045 < d.length) → (unarmor (armorText d ++ armorlast)).2 = false) := by
  have hL := length_armorText d
  rw [BLOCKBYTES] at hd
  have h33 := length_armorlast
  constructor
  · rintro (hlt | hgt)
    · refine unarmor_ending ?_
      rw [List.length_append, hL, h33, IOABUFREADSIZE]
      split <;> omega
    · have hne : d ≠ [] := by
        rintro rfl
        exact absurd hgt (by decide)
      have hfull : (armorText d).length = IOABUFREADSIZE := by
        rw [hL, if_neg hne, IOABUFREADSIZE]
        omega
      have hlast := unarmor_ending (d := []) (by decide)
      rw [armorText_nil, List.nil_append] at hlast
      rw [unarmor_full hne hfull, hlast, List.append_nil]
  · intro hmid
    have hne : d ≠ [] := by
      rintro rfl
      exact hmid (.inl (by decide))
    rw [if_neg hne] at hL
    -- the block ends between the fourth character of the ending line and the last
    obtain ⟨k, hk⟩ : ∃ k, k = IOABUFREADSIZE - (armorText d).length := ⟨_, rfl⟩
    rw [IOABUFREADSIZE] at hk
    have hk4 : 4 ≤ k ∧ k < armorlast.length := by
      rw [h33]
      omega
    have htake : (armorText d ++ armorlast).take IOABUFREADSIZE =
        armorText d ++ armorlast.take k := by
      rw [List.take_append, List.take_of_length_le (by rw [IOABUFREADSIZE]; omega), hk,
        IOABUFREADSIZE]
    have hpre : (armorlast.take k).length = k := by
      rw [List.length_take]
      omega
    have hdash : DASH ∈ (armorlast.take k).dropLast := by
      rw [List.dropLast_eq_take, hpre, List.take_take, Nat.min_eq_left (by omega)]
      obtain ⟨j, hj⟩ : ∃ j, k - 1 = j + 1 := ⟨k - 2, by omega⟩
      rw [hj]
      exact List.mem_cons_self
    have htext : armorText d ++ armorlast ≠ [] := by
      intro h
      cases (List.append_eq_nil_iff.mp h).2
    rw [unarmor_block htext, htake, decodeBlock_partial (by omega) hdash
      (by rw [List.length_append, hpre]; omega)]
    rfl

/-- The text that an armored output makes of `d` is accepted again, or it is
refused. -/
theorem unarmor_armorText (n : Nat) : ∀ {d : List UInt8}, d.length ≤ n →
    (d.length % BLOCKBYTES < 6022 ∨ 6045 < d.length % BLOCKBYTES →
      unarmor (armorText d ++ armorlast) = (d, true)) ∧
    (¬ (d.length % BLOCKBYTES < 6022 ∨ 6045 < d.length % BLOCKBYTES) →
      (unarmor (armorText d ++ armorlast)).2 = false) := by
  induction n with
  | zero =>
    intro d hn
    rw [List.length_eq_zero_iff.mp (Nat.le_zero.mp hn)]
    exact unarmor_lastBlock (d := []) (by decide)
  | succ n ih =>
    intro d hn
    rcases Nat.lt_or_ge d.length BLOCKBYTES with hlt | hge
    · rw [Nat.mod_eq_of_lt hlt]
      exact unarmor_lastBlock hlt
    have hblk : (d.take BLOCKBYTES).length = BLOCKBYTES := by
      rw [List.length_take]
      omega
    have hne : d.take BLOCKBYTES ≠ [] := by
      intro h
      rw [h] at hblk
      cases hblk
    have hfull : (armorText (d.take BLOCKBYTES)).length = IOABUFREADSIZE := by
      rw [length_armorText, if_neg hne, hblk]
      rfl
    have hsplit : armorText d ++ armorlast =
        armorText (d.take BLOCKBYTES) ++ (armorText (d.drop BLOCKBYTES) ++ armorlast) := by
      rw [← List.append_assoc, ← armorText_append _ (by rw [hblk]; rfl), List.take_append_drop]
    have hmod : d.length % BLOCKBYTES = (d.drop BLOCKBYTES).length % BLOCKBYTES := by
      rw [List.length_drop, ← Nat.mod_eq_sub_mod hge]
    obtain ⟨hok, hbad⟩ := ih (d := d.drop BLOCKBYTES) (by
      rw [List.length_drop, BLOCKBYTES]
      rw [BLOCKBYTES] at hge
      omega)
    rw [hsplit, unarmor_full hne hfull, hmod]
    refine ⟨fun h => ?_, hbad⟩
    rw [hok h, List.take_append_drop]

/-! ## Written and read -/

/-- A read beyond the last block that decodes reports an error. -/
theorem Ahead.refused {δ : Type} [Descr δ] {ch : Chan δ} {io : Io δ} {rest : List UInt8}
    (h : Ahead ch io rest false) :
    ∃ n io', Agecrypt.readCalls [.bread n] io = some ([.bread none], io') := by
  obtain ⟨n, hn⟩ : ∃ n, rest.length < n := ⟨_, Nat.lt_succ_self _⟩
  rcases h.bread n with ⟨io', hb, -⟩ | ⟨-, -, -, -, hshort⟩
  · exact ⟨n, io', by rw [readCalls_cons (readCall_bread hb)]; rfl⟩
  · cases hshort hn

/-- What calls that all succeed have sent. -/
theorem writeCalls_sent {parts : List (List UInt8)} {m : Memory} {fi fo : Int} {recording : Bool}
    {dev : Dev} {rs : List WriteCall} {io : Io Dev}
    (hwrite : writeCalls parts (m.start fi fo recording true dev) = some (rs, io))
    (hok : ∀ r ∈ rs, r.ok = true) (hout : dev.out = []) :
    io.dev.out = armorText parts.flatten := by
  obtain ⟨rs', io', hrun, -, hsent⟩ := writeCalls_exact parts m fi fo recording true dev
  rw [hwrite] at hrun
  obtain ⟨rfl, rfl⟩ := Prod.mk.inj (Option.some.inj hrun)
  rw [hsent hok, hout, if_pos rfl, List.nil_append]

/-- Whatever the calls that wrote them and the schedules of the two
descriptors: an armored output, between its two lines, delivers the bytes
that were written if and only if their last block of 6048 has fewer than
6022 bytes or more than 6045. -/
theorem armored_read_iff {parts : List (List UInt8)} {m m' : Memory} {fi fo fi' fo' : Int}
    {recording recording' isarmor' : Bool} {dev dev' : Dev} {rs : List WriteCall} {io : Io Dev}
    (hwrite : writeCalls parts (m.start fi fo recording true dev) = some (rs, io))
    (hok : ∀ r ∈ rs, r.ok = true) (hout : dev.out = [])
    (hinp : dev'.inp = armorfirst ++ (io.dev.out ++ armorlast)) (hreads : dev'.Reads) :
    (∀ calls, ∃ io', readCalls calls (m'.start fi' fo' recording' isarmor' dev') =
      some ((answers calls parts.flatten).1, io')) ↔
      parts.flatten.length % BLOCKBYTES < 6022 ∨ 6045 < parts.flatten.length % BLOCKBYTES := by
  rw [writeCalls_sent hwrite hok hout] at hinp
  have hstart := ahead_start m' fi' fo' recording' isarmor' hinp
  obtain ⟨hyes, hno⟩ := unarmor_armorText parts.flatten.length (Nat.le_refl parts.flatten.length)
  constructor
  · intro hall
    by_contra hcond
    rw [hno hcond] at hstart
    obtain ⟨n, io₁, hbad⟩ := hstart.refused
    obtain ⟨io₂, hcalls⟩ := hall [.bread n]
    rw [hbad] at hcalls
    have hans := (Prod.mk.inj (Option.some.inj hcalls)).1
    cases ReadAns.bread.inj (List.cons.inj hans).1
  · intro hcond calls
    rw [hyes hcond] at hstart
    exact hstart.readCalls calls ⟨hreads, False.elim⟩

/-- On descriptors that work every call succeeds. -/
theorem writeCalls_ok (fo : Int) (calls : List (List UInt8)) : ∀ {io : Io Dev}, io.ob.fd = fo →
    io.ob.cur < io.ob.cap → (devChan 0 fo True).steady io.dev →
    ∃ rs io', writeCalls calls io = some (rs, io') ∧ ∀ r ∈ rs, r.ok = true := by
  induction calls with
  | nil =>
    intro io hfd hcur hst
    have hr : SnkRel (devChan 0 fo True) io _ := snkRel_of_cur hfd hcur
    obtain ⟨ok, io', h, -, ⟨-, -, hbad⟩ | ⟨rfl, -, -⟩⟩ := bflush_spec trivial hr
    · exact absurd ⟨hst, trivial⟩ hbad
    · refine ⟨_, io', by rw [writeCalls, h]; rfl, ?_⟩
      intro r hm
      rw [List.mem_singleton.mp hm]
  | cons bs calls ih =>
    intro io hfd hcur hst
    have hr : SnkRel (devChan 0 fo True) io _ := snkRel_of_cur hfd hcur
    obtain ⟨ok, io₁, h, hw, ⟨-, -, hbad⟩ | ⟨rfl, hk, -⟩⟩ := bwrite_spec bs trivial hr
    · exact absurd ⟨hst, trivial⟩ hbad
    · obtain ⟨rs, io', h', hall⟩ := ih (hw.fd.trans hfd) (hw.cur hcur) (hk.steady hst)
      refine ⟨⟨true, io₁.dev.fails - io.dev.fails⟩ :: rs, io', ?_, ?_⟩
      · rw [writeCalls, h]
        simp only [Option.bind_eq_bind, Option.bind_some, h']
      · intro r hm
        rcases List.mem_cons.mp hm with rfl | hm
        · rfl
        · exact hall r hm

/-- Write `d` to an armored output that works. -/
def writeSample (d : List UInt8) : Option (List WriteCall × Io Dev) :=
  writeCalls [d] (Memory.zero.start 3 4 true true (Dev.steady [] 99))

/-- Read what `writeSample` has sent. -/
def readSample (io : Io Dev) : Io Dev :=
  Memory.zero.start 3 4 true false (Dev.steady (armorfirst ++ (io.dev.out ++ armorlast)) 7)

theorem writeSample_ok (d : List UInt8) :
    ∃ rs io, writeSample d = some (rs, io) ∧ ∀ r ∈ rs, r.ok = true :=
  writeCalls_ok 4 [d] rfl (cap_pos _)
    ⟨fun _ h => Event.noConfusion h, fun _ _ h => Event.noConfusion h⟩

theorem armored_read_iff_two :
    ∃ rs io, writeSample [65, 66] = some (rs, io) ∧
      ((∀ calls, ∃ io', readCalls calls (readSample io) = some ((answers calls [65, 66]).1, io')) ↔
        2 % BLOCKBYTES < 6022 ∨ 6045 < 2 % BLOCKBYTES) := by
  obtain ⟨rs, io, hwrite, hok⟩ := writeSample_ok [65, 66]
  exact ⟨rs, io, hwrite, armored_read_iff hwrite hok rfl (Dev.steady_inp _ 7)
    fun _ h => Event.noConfusion h⟩

/-- 6022 bytes are not read again. -/
theorem armored_6022_refused :
    ∃ rs io, writeSample (List.replicate 6022 0) = some (rs, io) ∧ (∀ r ∈ rs, r.ok = true) ∧
      ∃ n io', readCalls [.bread n] (readSample io) = some ([.bread none], io') := by
  obtain ⟨rs, io, hwrite, hok⟩ := writeSample_ok (List.replicate 6022 0)
  refine ⟨rs, io, hwrite, hok, ?_⟩
  have hsent := writeCalls_sent hwrite hok rfl
  have hstart := ahead_start Memory.zero 3 4 true false
    (Dev.steady_inp (armorfirst ++ (io.dev.out ++ armorlast)) 7)
  rw [List.flatten_singleton] at hsent
  rw [hsent, (unarmor_lastBlock (by rw [List.length_replicate]; decide)).2
    (by rw [List.length_replicate]; decide), ← hsent] at hstart
  exact hstart.refused

end Agecrypt
