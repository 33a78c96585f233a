import Agecrypt.Package.Identity
import Agecrypt.Package.Working

/-!
# What a key file yields

`reading` is what a key file says, by the whole of its contents: the lines
between line feeds, comments apart, and the identities among them.
`scan_keyfile` reads the contents as a C string, and refuses a comment that
names the format of an age file.  `scannedKeys` is the set of keys that it
finds; on which contents it is the reading, says `Plain`.
-/

namespace Agecrypt

open ProgE (Runs runs_pure runs_op runs_op_bind runs_loop runs_bind)

/-! ## Programs on a working system -/

/-- The program ends with `a` and leaves the file system alone. -/
def Gives {α : Type} (p : Pkg α) (a : α) (io : Io Sys) : Prop :=
  ∃ io', Runs pkgHandler p io (.ok a) io' ∧ Sys.Still io.dev io'.dev

namespace Gives

variable {α β : Type} {io : Io Sys}

theorem pure {a : α} (hw : io.dev.Working) : Gives (pure a) a io :=
  ⟨io, runs_pure.mpr ⟨rfl, rfl⟩, hw.refl⟩

/-- A program behind one whose outcome is known. -/
theorem after {p : Pkg α} {f : α → Pkg β} {a : α} {b : β} {io₁ : Io Sys}
    (hp : Runs pkgHandler p io (.ok a) io₁) (hs : Sys.Still io.dev io₁.dev)
    (hf : Gives (f a) b io₁) : Gives (p >>= f) b io := by
  obtain ⟨io₂, hr, hs'⟩ := hf
  exact ⟨io₂, hp.bind_ok.mpr hr, hs.trans hs'⟩

theorem bind {p : Pkg α} {f : α → Pkg β} {a : α} {b : β} (hp : Gives p a io)
    (hf : ∀ io', Sys.Still io.dev io'.dev → Gives (f a) b io') : Gives (p >>= f) b io := by
  obtain ⟨io₁, hr, hs⟩ := hp
  exact after hr hs (hf io₁ hs)

theorem op {o : PkgOp} {a : PkgRet o} {io' : Io Sys} (ho : pkgHandler o io = some (a, io'))
    (hs : Sys.Still io.dev io'.dev) : Gives (Pkg.op o) a io :=
  ⟨io', runs_op.mpr ⟨a, ho, rfl⟩, hs⟩

theorem malloc (hw : io.dev.Working) (n : Nat) : Gives (Pkg.op (.malloc n)) true io := by
  obtain ⟨ht, hs⟩ := hw.malloc n
  have ho : pkgHandler (.malloc n) io = some (true, { io with dev := (io.dev.malloc n).2 }) := by
    rw [pkgHandler, onSys, ht]
  exact op ho hs

theorem ralloc (hw : io.dev.Working) : Gives Pkg.ralloc () io := by
  have ho : pkgHandler .ralloc io =
      some (true,
        { io with dev := { io.dev with rallocs := fun i => io.dev.rallocs (i + 1) } }) := by
    rw [pkgHandler, onSys, hw.rallocs 0]
  refine bind (op ho hw.ralloc) fun io' hs => ?_
  rw [if_pos rfl]
  exact pure hs.working

theorem close (hw : io.dev.Working) (fd : Int) : ∃ b, Gives (Pkg.op (.close fd)) b io :=
  ⟨_, { io with dev := (io.dev.close fd).2 }, runs_op.mpr ⟨_, rfl, rfl⟩, hw.close fd⟩

theorem syserr (hw : io.dev.Working) : Gives Pkg.syserr (io.dev.strerror io.dev.errno) io :=
  after (runs_op.mpr ⟨_, rfl, rfl⟩) hw.refl (op rfl hw.refl)

end Gives

/-! ## Reading the whole file -/

/-- What `slurp_keyfile` makes of the contents. -/
def slurped (content : List UInt8) : Except String (List UInt8) :=
  if content.length < KEYFILE_MAX then .ok content
  else .error (copyerr 512 "key file is too large")

/-- The buffer holds the contents up to the position of the descriptor, and
has room for the NUL. -/
structure Slurping (content : List UInt8) (st : Slurp) : Prop where
  prefix_eq : st.buf = content.take st.buf.length
  bound : st.buf.length ≤ content.length
  room : st.buf.length ≤ st.cap - 1
  cap : 4096 ≤ st.cap

theorem slurpGrow_gives {content : List UInt8} {st : Slurp} (h : Slurping content st)
    {io : Io Sys} (hw : io.dev.Working) :
    ∃ st', (∃ io', Runs pkgHandler (slurpGrow st) io (.ok (some st')) io' ∧
        Sys.Still io.dev io'.dev ∧ io'.dev.fds = io.dev.fds) ∧
      Slurping content st' ∧ st'.buf = st.buf ∧ st.buf.length < st'.cap - 1 := by
  have hcap := h.cap
  have hroom := h.room
  rw [slurpGrow]
  by_cases hfull : st.buf.length = st.cap - 1
  · rw [if_pos hfull]
    obtain ⟨ht, hs⟩ := hw.malloc (st.cap * 2)
    have ho : pkgHandler (.malloc (st.cap * 2)) io =
        some (true, { io with dev := (io.dev.malloc (st.cap * 2)).2 }) := by
      rw [pkgHandler, onSys, ht]
    have hfds : (io.dev.malloc (st.cap * 2)).2.fds = io.dev.fds := by
      rw [Sys.malloc, if_pos (hw.allocs 0 _)]
    refine ⟨{ st with cap := st.cap * 2 }, ⟨{ io with dev := (io.dev.malloc (st.cap * 2)).2 },
      runs_op_bind.mpr ⟨true, _, ho, ?_⟩, hs, hfds⟩, ⟨h.prefix_eq, h.bound, ?_, ?_⟩, rfl, ?_⟩
    · rw [if_pos rfl]
      exact runs_pure.mpr ⟨rfl, rfl⟩
    all_goals
      dsimp only
      omega
  · rw [if_neg hfull]
    exact ⟨st, ⟨io, runs_pure.mpr ⟨rfl, rfl⟩, hw.refl, rfl⟩, h, rfl, by omega⟩

/-- One round: the file is too large, it has ended, or more of it is read. -/
theorem slurpRead_cases {content : List UInt8} {fd : Int} {file : Nat} {st : Slurp} {io : Io Sys}
    (h : Slurping content st) (hw : io.dev.Working) (hdata : io.dev.disk.data file = content)
    (hfd : io.dev.fds fd = some ⟨file, st.buf.length⟩) :
    Gives (slurpRead fd st) (.inr (slurped content)) io ∨
      ∃ st' io', Runs pkgHandler (slurpRead fd st) io (.ok (.inl st')) io' ∧
        Sys.Still io.dev io'.dev ∧ io'.dev.fds fd = some ⟨file, st'.buf.length⟩ ∧
        Slurping content st' ∧ st.buf.length < st'.buf.length := by
  have hbound := h.bound
  rw [slurpRead]
  by_cases hmax : st.buf.length ≥ KEYFILE_MAX
  · rw [if_pos hmax, slurped, if_neg (by omega)]
    obtain ⟨b, hb⟩ := Gives.close hw fd
    exact .inl (hb.bind fun io' hs => Gives.pure hs.working)
  rw [if_neg hmax]
  obtain ⟨st', ⟨io₁, hgrow, hs₁, hfds₁⟩, h', hbuf, hlt⟩ := slurpGrow_gives h hw
  obtain ⟨k, t, hk, hkn, hread, hs₂, hfd₂⟩ :=
    hs₁.working.read (hfds₁ ▸ hfd) (Nat.sub_pos_of_lt hlt)
  rw [hs₁.disk, hdata] at hread hfd₂
  have ho : pkgHandler (.read fd (st'.cap - 1 - st'.buf.length)) io₁ =
      some (some ((content.drop st.buf.length).take k), { io₁ with dev := t }) := by
    rw [pkgHandler, onSys, hbuf, hread]
  have hs : Sys.Still io.dev t := hs₁.trans hs₂
  rcases hbs : (content.drop st.buf.length).take k with _ | ⟨b, bs⟩
  · -- the end of the file
    rw [hbs] at ho
    have hend : content.length ≤ st.buf.length := by
      have hlen := congrArg List.length hbs
      rw [List.length_take, List.length_drop, List.length_nil] at hlen
      omega
    have hall : st'.buf = content := by
      rw [hbuf, h.prefix_eq, List.take_of_length_le hend]
    rw [slurped, if_pos (by omega), ← hall]
    have hclose : ∃ c, Gives (Pkg.op (.close fd)) c { io₁ with dev := t } :=
      Gives.close hs.working fd
    obtain ⟨c, hc⟩ := hclose
    refine .inl (Gives.after hgrow hs₁ ?_)
    refine Gives.after (runs_op.mpr ⟨_, ho, rfl⟩) hs₂ ?_
    exact hc.bind fun io' hs => Gives.pure hs.working
  · have hnew : st.buf ++ (b :: bs) = content.take (st.buf ++ (b :: bs)).length := by
      have hlen : (st.buf ++ (b :: bs)).length = st.buf.length + (b :: bs).length :=
        List.length_append
      have hbs' : b :: bs = (content.drop st.buf.length).take (b :: bs).length := by
        conv_lhs => rw [← hbs]
        rw [← hbs, List.length_take, ← List.take_eq_take_min]
      rw [hlen, List.take_add, ← h.prefix_eq, ← hbs']
    have hle : (st.buf ++ (b :: bs)).length ≤ content.length := by
      rw [hnew]
      exact List.length_take_le' ..
    have hcount : (b :: bs).length ≤ st'.cap - 1 - st.buf.length := by
      rw [← hbs]
      exact (List.length_take_le ..).trans hkn
    have hlen : (st'.buf ++ (b :: bs)).length = st.buf.length + (b :: bs).length := by
      rw [hbuf, List.length_append]
    rw [hbs] at ho hfd₂
    refine .inr ⟨{ st' with buf := st'.buf ++ (b :: bs) }, { io₁ with dev := t }, ?_, hs, ?_,
      ⟨?_, ?_, ?_, h'.cap⟩, ?_⟩
    · refine hgrow.bind_ok.mpr (runs_op_bind.mpr ⟨_, _, ho, ?_⟩)
      exact runs_pure.mpr ⟨rfl, rfl⟩
    · rw [hlen]
      exact hfd₂
    · rw [hbuf]
      exact hnew
    · rw [hbuf]
      exact hle
    · show (st'.buf ++ (b :: bs)).length ≤ st'.cap - 1
      omega
    · show st.buf.length < (st'.buf ++ (b :: bs)).length
      rw [hlen, List.length_cons]
      omega

/-- The loop reads on until the file ends or the limit is reached. -/
theorem slurpLoop_gives {content : List UInt8} {fd : Int} {file : Nat} (n : Nat) :
    ∀ {st : Slurp} {io : Io Sys}, content.length - st.buf.length < n → Slurping content st →
      io.dev.Working → io.dev.disk.data file = content →
      io.dev.fds fd = some ⟨file, st.buf.length⟩ →
      Gives (ProgE.loop (slurpRead fd) st) (slurped content) io := by
  induction n with
  | zero => exact fun hn => absurd hn (Nat.not_lt_zero _)
  | succ n ih =>
    intro st io hn h hw hdata hfd
    rcases slurpRead_cases h hw hdata hfd with
      ⟨io', hr, hs⟩ | ⟨st', io', hr, hs, hfd', h', hlt⟩
    · exact ⟨io', runs_loop.mpr (.inr (.inr ⟨_, hr, rfl⟩)), hs⟩
    · have hle := h'.bound
      obtain ⟨io₂, hr₂, hs₂⟩ := ih (by omega) h' hs.working (by rw [hs.disk, hdata]) hfd'
      exact ⟨io₂, runs_loop.mpr (.inr (.inl ⟨st', io', hr, hr₂⟩)), hs.trans hs₂⟩

/-- `slurp_keyfile` delivers the whole contents, whatever the schedule of
the reads. -/
theorem slurpKeyfile_gives {path : Path} {content : List UInt8} {io : Io Sys}
    (hw : io.dev.Working) (hp : io.dev.disk.contents path = some content) :
    Gives (slurpKeyfile path) (slurped content) io := by
  obtain ⟨file, hfile, hdata⟩ := Option.map_eq_some_iff.mp hp
  obtain ⟨fd, t, hopen, hs, hfd⟩ := hw.openRead hfile
  have ho : pkgHandler (.openRead path) io = some (some fd, { io with dev := t }) := by
    rw [pkgHandler, onSys, hopen]
  refine Gives.after (runs_op.mpr ⟨_, ho, rfl⟩) hs ?_
  obtain ⟨ht, hs'⟩ := hs.working.malloc 4096
  have hm : pkgHandler (.malloc 4096) { io with dev := t } =
      some (true, { io with dev := (t.malloc 4096).2 }) := by
    rw [pkgHandler, onSys, ht]
  have hfds : (t.malloc 4096).2.fds fd = some ⟨file, 0⟩ := by
    rw [Sys.malloc, if_pos (hs.working.allocs 0 _)]
    exact hfd
  refine Gives.after (runs_op.mpr ⟨_, hm, rfl⟩) hs' ?_
  rw [if_neg (not_not.mpr rfl)]
  refine slurpLoop_gives _ (Nat.lt_succ_self _) ⟨rfl, Nat.zero_le _, by decide, Nat.le_refl _⟩
    hs'.working ?_ hfds
  rw [hs'.disk, hs.disk]
  exact hdata

theorem slurpKeyfile_missing {path : Path} {io : Io Sys} (hw : io.dev.Working)
    (hp : io.dev.disk.contents path = none) :
    ∃ msg, Gives (slurpKeyfile path) (.error msg) io := by
  obtain ⟨hopen, hs⟩ := hw.openRead_missing (Option.map_eq_none_iff.mp hp)
  have ho : pkgHandler (.openRead path) io =
      some (none, { io with dev := (io.dev.openRead path).2 }) := by
    rw [pkgHandler, onSys, hopen]
  have herr : Gives Pkg.syserr _ { io with dev := (io.dev.openRead path).2 } :=
    Gives.syserr hs.working
  exact ⟨_, Gives.after (runs_op.mpr ⟨_, ho, rfl⟩) hs
    (herr.bind fun io' hs => Gives.pure hs.working)⟩

/-! ## The key array -/

/-- The key that a line or an inline string stands for. -/
def decodeIdentity (s : List UInt8) : Option (Bytes 32) :=
  if s.length = PRIVKEYLEN then x25519privkey s else none

/-- The keys lie inside the array. -/
def Keybuf.Fits (kb : Keybuf) : Prop := kb.keys.length ≤ kb.cap

theorem keybufGrow_gives {kb : Keybuf} (hkb : kb.Fits) {io : Io Sys} (hw : io.dev.Working) :
    ∃ cap, kb.keys.length < cap ∧ Gives (keybufGrow kb) (some { kb with cap }) io := by
  rw [keybufGrow]
  by_cases hfull : kb.keys.length = kb.cap
  · rw [if_pos hfull]
    refine ⟨if kb.cap ≠ 0 then kb.cap * 2 else 4, ?_, ?_⟩
    · split <;> omega
    · refine Gives.bind (Gives.malloc hw _) fun io' hs => ?_
      rw [if_pos rfl]
      exact Gives.pure hs.working
  · rw [if_neg hfull]
    exact ⟨kb.cap, Nat.lt_of_le_of_ne hkb hfull, Gives.pure hw⟩

/-- `keybuf_push` appends the key, and keeps the ones before. -/
theorem keybufPush_gives {kb : Keybuf} (hkb : kb.Fits) (s : List UInt8) {io : Io Sys}
    (hw : io.dev.Working) : ∃ kb' : Keybuf, kb'.Fits ∧
      match decodeIdentity s with
      | none => Gives (keybufPush kb s) (.invalid, kb') io
      | some key => Gives (keybufPush kb s) (.ok, kb') io ∧ kb'.keys = kb.keys ++ [key] := by
  rw [keybufPush, decodeIdentity]
  by_cases hlen : s.length = PRIVKEYLEN
  · rw [if_neg (not_not.mpr hlen), if_pos hlen]
    obtain ⟨cap, hcap, hgrow⟩ := keybufGrow_gives hkb hw
    cases hkey : x25519privkey s with
    | none =>
      refine ⟨{ kb with cap }, Nat.le_of_lt hcap, hgrow.bind fun io' hs => ?_⟩
      exact Gives.pure hs.working
    | some key =>
      refine ⟨⟨kb.keys ++ [key], cap⟩, ?_, hgrow.bind fun io' hs => ?_, rfl⟩
      · rw [Keybuf.Fits, List.length_append, List.length_singleton]
        exact hcap
      · dsimp only
        rw [if_pos hcap]
        exact Gives.pure hs.working
  · rw [if_pos hlen, if_neg hlen]
    exact ⟨kb, hkb, Gives.pure hw⟩

/-! ## The lines -/

/-- A line that looks like the header of an age file. -/
def looksEncrypted (t : List UInt8) : Bool :=
  (ascii "-----BEGIN AGE").isPrefixOf t || strstr (ascii "age-encryption.org/v1") t

/-- A line that stands for an identity. -/
def isKeyLine (t : List UInt8) : Bool := (ascii "AGE-SECRET-KEY-1").isPrefixOf t

def isComment (t : List UInt8) : Bool := (ascii "#").isPrefixOf t

/-- What a trimmed line adds to the keys; `none` for a line that is refused. -/
def lineKeys (t : List UInt8) : Option (List (Bytes 32)) :=
  if looksEncrypted t then none
  else if isKeyLine t then (decodeIdentity t).map fun key => [key]
  else some []

def scanKeys : List (List UInt8) → Option (List (Bytes 32))
  | [] => some []
  | t :: ts => (lineKeys t).bind fun keys => (scanKeys ts).map (keys ++ ·)

/-- The program adds the keys to the array; for `none` it ends with a
message. -/
def Adds (p : Pkg (Option String × Keybuf)) (kb : Keybuf) (r : Option (List (Bytes 32)))
    (io : Io Sys) : Prop :=
  ∃ kb' : Keybuf, kb'.Fits ∧
    match r with
    | none => ∃ msg, Gives p (some msg, kb') io
    | some keys => Gives p (none, kb') io ∧ kb'.keys = kb.keys ++ keys

theorem scanLine_adds {kb : Keybuf} (hkb : kb.Fits) (line : List UInt8) {io : Io Sys}
    (hw : io.dev.Working) : Adds (scanLine kb line) kb (lineKeys (trimline line)) io := by
  rw [scanLine]
  have henc : ((ascii "-----BEGIN AGE").isPrefixOf (trimline line) = true ∨
      strstr (ascii "age-encryption.org/v1") (trimline line) = true) ↔
      looksEncrypted (trimline line) = true := by
    rw [looksEncrypted, Bool.or_eq_true]
  simp only [henc]
  rw [lineKeys]
  by_cases hbad : looksEncrypted (trimline line) = true
  · rw [if_pos hbad, if_pos hbad]
    exact ⟨kb, hkb, _, Gives.pure hw⟩
  rw [if_neg hbad, if_neg hbad, isKeyLine]
  by_cases hkey : (ascii "AGE-SECRET-KEY-1").isPrefixOf (trimline line) = true
  · rw [if_neg (not_not.mpr hkey), if_pos hkey]
    obtain ⟨kb', hfits, hpush⟩ := keybufPush_gives hkb (trimline line) hw
    cases hdec : decodeIdentity (trimline line) with
    | none =>
      rw [hdec] at hpush
      exact ⟨kb', hfits, _, hpush.bind fun io' hs => Gives.pure hs.working⟩
    | some key =>
      rw [hdec] at hpush
      exact ⟨kb', hfits, hpush.1.bind fun io' hs => Gives.pure hs.working, hpush.2⟩
  · rw [if_pos hkey, if_neg hkey]
    exact ⟨kb, hkb, Gives.pure hw, (List.append_nil _).symm⟩

theorem scanLines_adds (ls : List (List UInt8)) : ∀ {kb : Keybuf}, kb.Fits → ∀ {io : Io Sys},
    io.dev.Working → Adds (scanLines ls kb) kb (scanKeys (ls.map trimline)) io := by
  induction ls with
  | nil =>
    intro kb hkb io hw
    exact ⟨kb, hkb, Gives.pure hw, (List.append_nil _).symm⟩
  | cons line ls ih =>
    intro kb hkb io hw
    obtain ⟨kb₁, hfits, hline⟩ := scanLine_adds hkb line hw
    rw [List.map_cons, scanKeys]
    cases hkeys : lineKeys (trimline line) with
    | none =>
      rw [hkeys] at hline
      obtain ⟨msg, hmsg⟩ := hline
      exact ⟨kb₁, hfits, msg, hmsg.bind fun io' hs => Gives.pure hs.working⟩
    | some keys =>
      rw [hkeys] at hline
      obtain ⟨⟨io₁, hr, hs⟩, happ⟩ := hline
      obtain ⟨kb₂, hfits₂, hrest⟩ := ih hfits hs.working
      refine ⟨kb₂, hfits₂, ?_⟩
      rw [Option.bind_some]
      cases hmore : scanKeys (ls.map trimline) with
      | none =>
        rw [hmore] at hrest
        obtain ⟨msg, hmsg⟩ := hrest
        exact ⟨msg, Gives.after hr hs hmsg⟩
      | some more =>
        rw [hmore] at hrest
        refine ⟨Gives.after hr hs hrest.1, ?_⟩
        rw [hrest.2, happ, List.append_assoc]

/-- The keys that `scan_keyfile` finds in the contents. -/
def scannedKeys (content : List UInt8) : Option (List (Bytes 32)) :=
  if content.length < KEYFILE_MAX then
    match scanKeys ((lines (cstring content)).map trimline) with
    | some (key :: keys) => some (key :: keys)
    | _ => none
  else none

theorem scanKeyfile_adds {path : Path} {content : List UInt8} {kb : Keybuf} (hkb : kb.Fits)
    {io : Io Sys} (hw : io.dev.Working) (hp : io.dev.disk.contents path = some content) :
    Adds (scanKeyfile path kb) kb (scannedKeys content) io := by
  have hslurp := slurpKeyfile_gives hw hp
  rw [scanKeyfile, scannedKeys]
  by_cases hlen : content.length < KEYFILE_MAX
  · rw [slurped, if_pos hlen] at hslurp
    rw [if_pos hlen]
    obtain ⟨io₁, hr, hs⟩ := hslurp
    obtain ⟨kb', hfits, hscan⟩ := scanLines_adds (lines (cstring content)) hkb hs.working
    cases hkeys : scanKeys ((lines (cstring content)).map trimline) with
    | none =>
      rw [hkeys] at hscan
      obtain ⟨msg, hmsg⟩ := hscan
      exact ⟨kb', hfits, msg, Gives.after hr hs (hmsg.bind fun io' hs => Gives.pure hs.working)⟩
    | some keys =>
      rw [hkeys] at hscan
      obtain ⟨hgive, happ⟩ := hscan
      have hlen' : kb'.keys.length = kb.keys.length + keys.length := by
        rw [happ, List.length_append]
      cases keys with
      | nil =>
        refine ⟨kb', hfits, copyerr 512 "no age identities in key file",
          Gives.after hr hs (hgive.bind fun io' hs => ?_)⟩
        rw [List.length_nil, Nat.add_zero] at hlen'
        dsimp only
        rw [if_pos hlen']
        exact Gives.pure hs.working
      | cons key keys =>
        refine ⟨kb', hfits, Gives.after hr hs (hgive.bind fun io' hs => ?_), happ⟩
        rw [List.length_cons] at hlen'
        dsimp only
        rw [if_neg (by omega)]
        exact Gives.pure hs.working
  · rw [slurped, if_neg hlen] at hslurp
    rw [if_neg hlen]
    exact ⟨kb, hkb, _, hslurp.bind fun io' hs => Gives.pure hs.working⟩

/-- There is one outcome. -/
theorem Adds.unique {p : Pkg (Option String × Keybuf)} {kb : Keybuf}
    {r r' : Option (List (Bytes 32))} {io : Io Sys} (h : Adds p kb r io) (h' : Adds p kb r' io) :
    r = r' := by
  obtain ⟨kb₁, -, h⟩ := h
  obtain ⟨kb₂, -, h'⟩ := h'
  rcases r with _ | keys <;> rcases r' with _ | keys'
  · rfl
  · obtain ⟨msg, io₁, hr, -⟩ := h
    obtain ⟨⟨io₂, hr', -⟩, -⟩ := h'
    cases (hr.unique hr').1
  · obtain ⟨⟨io₁, hr, -⟩, -⟩ := h
    obtain ⟨msg, io₂, hr', -⟩ := h'
    cases (hr.unique hr').1
  · obtain ⟨⟨io₁, hr, -⟩, happ⟩ := h
    obtain ⟨⟨io₂, hr', -⟩, happ'⟩ := h'
    obtain rfl : kb₁ = kb₂ := congrArg Prod.snd (Except.ok.inj (hr.unique hr').1)
    rw [List.append_cancel_left (happ.symm.trans happ')]

/-! ## What the file says -/

/-- The identities in the lines of a text; `none` when the text has none,
when one of them does not decode, or when `refused` holds of a line. -/
def textKeys (refused : List UInt8 → Bool) (text : List UInt8) : Option (List (Bytes 32)) :=
  let ts := (lines text).map trimline
  if ts.any refused then none
  else if ts.any isKeyLine then (ts.filter isKeyLine).mapM decodeIdentity
  else none

/-- The identities in the contents of a key file: a line other than a comment
must not look like the header of an age file. -/
def reading (content : List UInt8) : Option (List (Bytes 32)) :=
  if content.length < KEYFILE_MAX then
    textKeys (fun t => !isComment t && looksEncrypted t) content
  else none

theorem scanKeys_eq (ts : List (List UInt8)) :
    scanKeys ts =
      if ts.any looksEncrypted then none else (ts.filter isKeyLine).mapM decodeIdentity := by
  induction ts with
  | nil => rfl
  | cons t ts ih =>
    rw [scanKeys, lineKeys, List.any_cons]
    cases hbad : looksEncrypted t with
    | true => rfl
    | false =>
      rw [Bool.false_or, if_neg Bool.false_ne_true, ih]
      cases hkey : isKeyLine t with
      | false =>
        rw [if_neg Bool.false_ne_true, List.filter_cons_of_neg (by rw [hkey]; decide),
          Option.bind_some]
        exact Option.map_id'
      | true =>
        rw [if_pos rfl, List.filter_cons_of_pos hkey, List.mapM_cons]
        cases decodeIdentity t with
        | none =>
          split <;> rfl
        | some key =>
          split
          · rfl
          · cases (ts.filter isKeyLine).mapM decodeIdentity <;> rfl

/-- The scan takes the contents as one C string, and comments as lines. -/
theorem scannedKeys_eq (content : List UInt8) :
    scannedKeys content =
      if content.length < KEYFILE_MAX then textKeys looksEncrypted (cstring content) else none := by
  rw [scannedKeys, textKeys, scanKeys_eq]
  set ts := (lines (cstring content)).map trimline
  split
  · by_cases hbad : ts.any looksEncrypted = true
    · rw [if_pos hbad, if_pos hbad]
    · rw [if_neg hbad, if_neg hbad]
      by_cases hkey : ts.any isKeyLine = true
      · rw [if_pos hkey]
        obtain ⟨t, ht, hk⟩ := List.any_eq_true.mp hkey
        rcases hf : ts.filter isKeyLine with _ | ⟨k, ks⟩
        · exact absurd (List.mem_filter.mpr ⟨ht, hk⟩) (by rw [hf]; exact List.not_mem_nil)
        · rw [List.mapM_cons]
          cases decodeIdentity k with
          | none => rfl
          | some key => cases ks.mapM decodeIdentity <;> rfl
      · rw [if_neg hkey]
        have hf : ts.filter isKeyLine = [] := by
          rw [List.filter_eq_nil_iff]
          exact fun t ht hk => hkey (List.any_eq_true.mpr ⟨t, ht, hk⟩)
        rw [hf]
        rfl
  · rfl

/-- A comment in front of the first NUL names the format of an age file. -/
def CommentNames (content : List UInt8) : Prop :=
  ((lines (cstring content)).map trimline).any (fun t => isComment t && looksEncrypted t) = true

/-- The contents on which the scan is the reading.  Either they are too long
for both; or a comment names the format, and the contents say nothing
anyway; or no comment does, and what stands in front of the first NUL says
what the whole says. -/
def Plain (content : List UInt8) : Prop :=
  KEYFILE_MAX ≤ content.length ∨
    (CommentNames content ∧ reading content = none) ∨
    (¬ CommentNames content ∧ reading (cstring content) = reading content)

theorem length_cstring_le (content : List UInt8) : (cstring content).length ≤ content.length :=
  (List.takeWhile_prefix _).length_le

theorem scannedKeys_eq_reading_iff (content : List UInt8) :
    scannedKeys content = reading content ↔ Plain content := by
  rw [scannedKeys_eq, Plain]
  by_cases hlen : content.length < KEYFILE_MAX
  · have hle := length_cstring_le content
    have hlen' : (cstring content).length < KEYFILE_MAX := by omega
    have hnot : ¬ KEYFILE_MAX ≤ content.length := by omega
    rw [if_pos hlen]
    have hsplit : ((lines (cstring content)).map trimline).any looksEncrypted =
        (((lines (cstring content)).map trimline).any (fun t => isComment t && looksEncrypted t) ||
          ((lines (cstring content)).map trimline).any
            (fun t => !isComment t && looksEncrypted t)) := by
      induction (lines (cstring content)).map trimline with
      | nil => rfl
      | cons t ts ih =>
        rw [List.any_cons, List.any_cons, List.any_cons, ih]
        cases isComment t <;> cases looksEncrypted t <;> simp
    by_cases hname : CommentNames content
    · have hnone : textKeys looksEncrypted (cstring content) = none := by
        rw [textKeys, hsplit, hname]
        rfl
      rw [hnone]
      simp [hnot, hname, eq_comm]
    · have heq : textKeys looksEncrypted (cstring content) = reading (cstring content) := by
        rw [reading, if_pos hlen', textKeys, textKeys, hsplit]
        rw [CommentNames, Bool.not_eq_true] at hname
        rw [hname, Bool.false_or]
      rw [heq]
      simp [hnot, hname]
  · rw [if_neg hlen, reading, if_neg hlen]
    simp [Nat.le_of_not_lt hlen]

/-! ## Several items -/

/-- The keys of one item: of a key file or of an inline string. -/
def itemKeys (d : Disk) : Option (List UInt8) × Option Bool → Option (List (Bytes 32))
  | (some s, some true) => (d.contents s).bind scannedKeys
  | (some s, some false) => (decodeIdentity s).map fun key => [key]
  | _ => none

/-- The keys of the items in their order. -/
def itemsKeys (d : Disk) : List (Option (List UInt8) × Option Bool) → Option (List (Bytes 32))
  | [] => some []
  | item :: items => (itemKeys d item).bind fun keys => (itemsKeys d items).map (keys ++ ·)

/-- The program adds the keys to the array; for `none` it ends with an error. -/
def Parses (p : Pkg (Except String Keybuf)) (kb : Keybuf) (r : Option (List (Bytes 32)))
    (io : Io Sys) : Prop :=
  match r with
  | none => ∃ msg, Gives p (.error msg) io
  | some keys => ∃ kb' : Keybuf, kb'.Fits ∧ Gives p (.ok kb') io ∧ kb'.keys = kb.keys ++ keys

theorem scanKeyfile_item {path : Path} {kb : Keybuf} (hkb : kb.Fits) {io : Io Sys}
    (hw : io.dev.Working) :
    Adds (scanKeyfile path kb) kb ((io.dev.disk.contents path).bind scannedKeys) io := by
  cases hc : io.dev.disk.contents path with
  | none =>
    obtain ⟨msg, hmsg⟩ := slurpKeyfile_missing hw hc
    exact ⟨kb, hkb, msg, hmsg.bind fun io' hs => Gives.pure hs.working⟩
  | some content => exact scanKeyfile_adds hkb hw hc

theorem parseItems_parses (items : List (Option (List UInt8) × Option Bool)) :
    ∀ {kb : Keybuf}, kb.Fits → ∀ {io : Io Sys}, io.dev.Working →
      Parses (parseItems items kb) kb (itemsKeys io.dev.disk items) io := by
  induction items with
  | nil =>
    intro kb hkb io hw
    exact ⟨kb, hkb, Gives.pure hw, (List.append_nil _).symm⟩
  | cons item items ih =>
    intro kb hkb io hw
    -- what follows an item that added its keys
    have hmore : ∀ {β : Type} {p : Pkg β} {f : β → Pkg (Except String Keybuf)} {b : β}
        {kb₁ : Keybuf} {keys : List (Bytes 32)}, Gives p b io → kb₁.Fits →
        kb₁.keys = kb.keys ++ keys → f b = parseItems items kb₁ →
        Parses (p >>= f) kb ((itemsKeys io.dev.disk items).map (keys ++ ·)) io := by
      intro β p f b kb₁ keys hp hfits happ hf
      obtain ⟨io₁, hr, hs⟩ := hp
      have hrest := ih hfits hs.working
      rw [hs.disk] at hrest
      cases hk : itemsKeys io.dev.disk items with
      | none =>
        rw [hk] at hrest
        obtain ⟨msg, hmsg⟩ := hrest
        exact ⟨msg, Gives.after hr hs (hf ▸ hmsg)⟩
      | some more =>
        rw [hk] at hrest
        obtain ⟨kb₂, hfits₂, hgive, happ₂⟩ := hrest
        refine ⟨kb₂, hfits₂, Gives.after hr hs (hf ▸ hgive), ?_⟩
        rw [happ₂, happ, List.append_assoc]
    rw [itemsKeys]
    obtain ⟨_ | s, _ | _ | _⟩ := item
    · exact ⟨_, Gives.pure hw⟩
    · exact ⟨_, Gives.pure hw⟩
    · exact ⟨_, Gives.pure hw⟩
    · exact ⟨_, Gives.pure hw⟩
    · obtain ⟨kb₁, hfits, hpush⟩ := keybufPush_gives hkb s hw
      rw [itemKeys]
      cases hdec : decodeIdentity s with
      | none =>
        rw [hdec] at hpush
        exact ⟨_, hpush.bind fun io' hs => Gives.pure hs.working⟩
      | some key =>
        rw [hdec] at hpush
        exact hmore hpush.1 hfits hpush.2 rfl
    · have hitem : Adds (scanKeyfile s kb) kb ((io.dev.disk.contents s).bind scannedKeys) io :=
        scanKeyfile_item hkb hw
      obtain ⟨kb₁, hfits, hscan⟩ := hitem
      rw [itemKeys]
      cases hkeys : (io.dev.disk.contents s).bind scannedKeys with
      | none =>
        rw [hkeys] at hscan
        obtain ⟨msg, hmsg⟩ := hscan
        exact ⟨_, hmsg.bind fun io' hs => Gives.pure hs.working⟩
      | some keys =>
        rw [hkeys] at hscan
        exact hmore hscan.1 hfits hscan.2 rfl

theorem Gives.resultOk {io : Io Sys} (hw : io.dev.Working) (payload : Sexp) :
    Gives (resultOk payload) (.ok payload) io := by
  refine (Gives.ralloc hw).bind fun io₁ hs₁ => ?_
  refine (Gives.ralloc hs₁.working).bind fun io₂ hs₂ => ?_
  exact Gives.pure hs₂.working

theorem Gives.resultErr {io : Io Sys} (hw : io.dev.Working) (cls msg : String) :
    Gives (resultErr cls msg) (.err cls msg) io := by
  refine (Gives.ralloc hw).bind fun io₁ hs₁ => ?_
  refine (Gives.ralloc hs₁.working).bind fun io₂ hs₂ => ?_
  refine (Gives.ralloc hs₂.working).bind fun io₃ hs₃ => ?_
  exact Gives.pure hs₃.working

theorem Gives.idWrap {io : Io Sys} (hw : io.dev.Working) (keys : List (Bytes 32)) :
    Gives (idWrap keys) (.extptr true (some keys)) io := by
  refine (Gives.ralloc hw).bind fun io₁ hs₁ => ?_
  refine (Gives.ralloc hs₁.working).bind fun io₂ hs₂ => ?_
  refine (Gives.ralloc hs₂.working).bind fun io₃ hs₃ => ?_
  exact Gives.pure hs₃.working

/-- The keys that the arguments of `age_c_identity_parse` stand for. -/
def argumentKeys (d : Disk) : Sexp → Sexp → Option (List (Bytes 32))
  | .str els, .lgl file =>
    if els.length = 0 ∨ file.length ≠ els.length then none
    else
      match itemsKeys d (els.zip file) with
      | some (key :: keys) => some (key :: keys)
      | _ => none
  | _, _ => none

/-- The program returns an identity with the keys; for `none` it returns an
error. -/
def Returns (p : Pkg Result) (r : Option (List (Bytes 32))) (io : Io Sys) : Prop :=
  match r with
  | none => ∃ cls msg, Gives p (.err cls msg) io
  | some keys => Gives p (.ok (.extptr true (some keys))) io

theorem ageCIdentityParse_returns (items isfile : Sexp) {io : Io Sys} (hw : io.dev.Working) :
    Returns (ageCIdentityParse items isfile) (argumentKeys io.dev.disk items isfile) io := by
  have hclear : Runs pkgHandler (Pkg.op .eclear) io (.ok ()) { io with ebuf := "" } :=
    runs_op.mpr ⟨(), rfl, rfl⟩
  have hw' : ({ io with ebuf := "" } : Io Sys).dev.Working := hw
  have hbad : ∀ {f : Unit → Pkg Result} {cls msg : String}, f () = resultErr cls msg →
      Returns (Pkg.op .eclear >>= f) none io := by
    intro f cls msg hf
    exact ⟨cls, msg, Gives.after hclear hw.refl (hf ▸ Gives.resultErr hw' cls msg)⟩
  cases items with
  | str els =>
    cases isfile with
    | lgl file =>
      rw [argumentKeys]
      by_cases hsize : els.length = 0 ∨ file.length ≠ els.length
      · rw [if_pos hsize]
        exact hbad (if_pos hsize)
      rw [if_neg hsize]
      have hfits : Keybuf.Fits ⟨[], 0⟩ := Nat.le_refl 0
      have hparse : Parses (parseItems (els.zip file) ⟨[], 0⟩) ⟨[], 0⟩
          (itemsKeys io.dev.disk (els.zip file)) { io with ebuf := "" } :=
        parseItems_parses (els.zip file) hfits hw'
      cases hkeys : itemsKeys io.dev.disk (els.zip file) with
      | none =>
        rw [hkeys] at hparse
        obtain ⟨msg, hmsg⟩ := hparse
        refine ⟨"identity", msg, Gives.after hclear hw.refl ?_⟩
        dsimp only
        rw [if_neg hsize]
        exact hmsg.bind fun io' hs => Gives.resultErr hs.working _ _
      | some keys =>
        rw [hkeys] at hparse
        obtain ⟨kb, -, hgive, happ⟩ := hparse
        rw [List.nil_append] at happ
        cases keys with
        | nil =>
          refine ⟨"identity", "no identities found", Gives.after hclear hw.refl ?_⟩
          dsimp only
          rw [if_neg hsize]
          refine hgive.bind fun io' hs => ?_
          dsimp only
          rw [if_pos (by rw [happ]; rfl)]
          exact Gives.resultErr hs.working _ _
        | cons key keys =>
          refine Gives.after hclear hw.refl ?_
          dsimp only
          rw [if_neg hsize]
          refine hgive.bind fun io' hs => ?_
          dsimp only
          rw [if_neg (by rw [happ, List.length_cons]; omega), happ]
          refine (Gives.malloc hs.working 16).bind fun io₂ hs₂ => ?_
          rw [if_neg (not_not.mpr rfl)]
          refine (Gives.idWrap hs₂.working _).bind fun io₃ hs₃ => ?_
          exact Gives.resultOk hs₃.working _
    | _ => exact hbad rfl
  | _ => exact hbad rfl

/-! ## When the scan is the reading -/

/-- A key file is read completely or refused, exactly when its contents are
plain; and several items give their keys in order, or no identity. -/
theorem keyfile_reads_iff_plain (io : Io Sys) (hw : io.dev.Working) :
    (∀ (path : Path) (content : List UInt8) (kb : Keybuf),
      io.dev.disk.contents path = some content → kb.Fits →
      (Adds (scanKeyfile path kb) kb (reading content) io ↔ Plain content)) ∧
    ∀ items isfile : Sexp,
      Returns (ageCIdentityParse items isfile) (argumentKeys io.dev.disk items isfile) io := by
  refine ⟨fun path content kb hp hkb => ?_, fun items isfile => ?_⟩
  · have hscan := scanKeyfile_adds hkb hw hp
    rw [← scannedKeys_eq_reading_iff]
    constructor
    · exact fun h => hscan.unique h
    · exact fun h => h ▸ hscan
  · exact ageCIdentityParse_returns items isfile hw

/-- A key file of two identities with a NUL byte between them. -/
def nulContent : List UInt8 :=
  ascii "AGE-SECRET-KEY-1QURSWPC8QURSWPC8QURSWPC8QURSWPC8QURSWPC8QURSWPC8QURSKMP32K\n" ++ [0] ++
    ascii "\nAGE-SECRET-KEY-1PYYSJZGFPYYSJZGFPYYSJZGFPYYSJZGFPYYSJZGFPYYSJZGFPYYSTFVYXW\n"

theorem keyfile_reads_iff_plain_nul :
    (Adds (scanKeyfile [1] ⟨[], 0⟩) ⟨[], 0⟩ (reading nulContent) (Io.fresh [([1], nulContent)]) ↔
        Plain nulContent) ∧
      Returns (ageCIdentityParse (.str [some [1]]) (.lgl [some true]))
        (argumentKeys (Io.fresh [([1], nulContent)]).dev.disk (.str [some [1]]) (.lgl [some true]))
        (Io.fresh [([1], nulContent)]) := by
  -- the content stays a variable, so that nothing unfolds it
  have key : ∀ content : List UInt8,
      (Adds (scanKeyfile [1] ⟨[], 0⟩) ⟨[], 0⟩ (reading content) (Io.fresh [([1], content)]) ↔
          Plain content) ∧
        Returns (ageCIdentityParse (.str [some [1]]) (.lgl [some true]))
          (argumentKeys (Io.fresh [([1], content)]).dev.disk (.str [some [1]]) (.lgl [some true]))
          (Io.fresh [([1], content)]) := by
    intro content
    obtain ⟨hscan, hparse⟩ :=
      keyfile_reads_iff_plain (Io.fresh [([1], content)]) (Sys.working_steady _ 99)
    exact ⟨hscan [1] content ⟨[], 0⟩ (Disk.contents_ofFiles _ _) (Nat.le_refl 0), hparse _ _⟩
  exact key nulContent

/-- The second identity is dropped without a message. -/
theorem keyfile_drops_behind_nul :
    ¬ Adds (scanKeyfile [1] ⟨[], 0⟩) ⟨[], 0⟩ (reading nulContent) (Io.fresh [([1], nulContent)]) ∧
      reading nulContent =
        some [⟨List.replicate 32 7, by decide⟩, ⟨List.replicate 32 9, by decide⟩] ∧
      Adds (scanKeyfile [1] ⟨[], 0⟩) ⟨[], 0⟩ (some [⟨List.replicate 32 7, by decide⟩])
        (Io.fresh [([1], nulContent)]) := by
  have hfits : Keybuf.Fits ⟨[], 0⟩ := Nat.le_refl 0
  have hscan : Adds (scanKeyfile [1] ⟨[], 0⟩) ⟨[], 0⟩ (scannedKeys nulContent)
      (Io.fresh [([1], nulContent)]) :=
    scanKeyfile_adds hfits (Sys.working_steady _ 99) (Disk.contents_ofFiles _ _)
  have hread : reading nulContent =
      some [⟨List.replicate 32 7, by decide⟩, ⟨List.replicate 32 9, by decide⟩] := by
    decide +kernel
  have hkeys : scannedKeys nulContent = some [⟨List.replicate 32 7, by decide⟩] := by
    decide +kernel
  rw [hkeys] at hscan
  refine ⟨fun h => ?_, hread, hscan⟩
  have := hscan.unique h
  rw [hread] at this
  revert this
  decide

end Agecrypt
