import Agecrypt.Agec.Agecore
import Agecrypt.Lib.Search

/-!
# What `match` finds

`match` goes through the stanzas of a header and tries the identities on
each X25519 stanza until one opens it.  It keeps reading behind a hit, and
the same variables serve for a scrypt stanza, whose mixture with others is
refused at the end.

`Access.Yields` says which file key a header gives: the first hit among the
pairs of an X25519 stanza and an identity, or the one scrypt stanza under
the passphrase.
-/

namespace Agecrypt

/-! ## The tries -/

/-- The pairs in the order in which they are tried. -/
def tries (ids : List (Bytes 32)) : List Stanza → List (X25519arg × Bytes 32)
  | [] => []
  | .x25519 arg :: ss => ids.map (fun id => (arg, id)) ++ tries ids ss
  | .scrypt _ :: ss => tries ids ss
  | .unknown :: ss => tries ids ss

/-- The first pair that gives a file key gives `filekey`, and no pair before
it ends in an error. -/
def Unlocks (C : Crypto) (ids : List (Bytes 32)) (ss : List Stanza) (filekey : Bytes 16) : Prop :=
  FirstHit (fun (q : X25519arg × Bytes 32) => x25519getkey C q.1 q.2) (tries ids ss) filekey

theorem mem_tries {ids : List (Bytes 32)} {ss : List Stanza} {arg : X25519arg} {id : Bytes 32} :
    (arg, id) ∈ tries ids ss ↔ .x25519 arg ∈ ss ∧ id ∈ ids := by
  induction ss with
  | nil => simp [tries]
  | cons s ss ih =>
    cases s with
    | x25519 arg' =>
      rw [tries, List.mem_append, ih, List.mem_cons, Stanza.x25519.injEq]
      constructor
      · intro h
        rcases h with h | h
        · obtain ⟨id', hid, heq⟩ := List.mem_map.mp h
          obtain ⟨rfl, rfl⟩ := Prod.mk.inj heq
          exact ⟨.inl rfl, hid⟩
        · exact ⟨.inr h.1, h.2⟩
      · intro ⟨h, hid⟩
        rcases h with rfl | h
        · exact .inl (List.mem_map_of_mem hid)
        · exact .inr ⟨h, hid⟩
    | scrypt arg' => simp [tries, ih]
    | unknown => simp [tries, ih]

theorem known_of_tries {ids : List (Bytes 32)} {ss : List Stanza} (h : tries ids ss ≠ []) :
    ∃ s ∈ ss, s ≠ .unknown := by
  induction ss with
  | nil => exact absurd rfl h
  | cons s ss ih =>
    cases s with
    | x25519 arg => exact ⟨_, List.mem_cons_self, fun hs => by cases hs⟩
    | scrypt arg => exact ⟨_, List.mem_cons_self, fun hs => by cases hs⟩
    | unknown =>
      obtain ⟨s, hs, hne⟩ := ih h
      exact ⟨s, List.mem_cons_of_mem _ hs, hne⟩

section

variable {C : Crypto} {arg : X25519arg} {ids : List (Bytes 32)} {filekey : Bytes 16}

theorem findx25519_some :
    findx25519 C arg ids = .ok (some filekey) ↔ FirstHit (x25519getkey C arg) ids filekey := by
  induction ids with
  | nil =>
    rw [findx25519]
    exact ⟨fun h => (Option.some_ne_none _ (Except.ok.inj h).symm).elim,
      fun h => absurd h not_firstHit_nil⟩
  | cons id ids ih =>
    rw [findx25519, firstHit_cons]
    rcases h : x25519getkey C arg id with e | _ | k
    · simp
    · simp [ih]
    · simp

theorem findx25519_none : findx25519 C arg ids = .ok none ↔ NoHit (x25519getkey C arg) ids := by
  induction ids with
  | nil => exact ⟨fun _ id hid => absurd hid List.not_mem_nil, fun _ => rfl⟩
  | cons id ids ih =>
    rw [findx25519, noHit_cons]
    rcases h : x25519getkey C arg id with e | _ | k
    · simp
    · simp [ih]
    · simp

end

/-! ## The loop -/

/-- The rounds of the loop of `match`, with a count that knows no bound. -/
def matchStanzas (C : Crypto) (ids : List (Bytes 32)) :
    List Stanza → MatchState → Except String MatchState
  | [], st => .ok st
  | s :: ss, st =>
    match matchStanza C ids s st with
    | .error e => .error e
    | .ok st => matchStanzas C ids ss { st with n := st.n + 1 }

def Stanza.isScrypt : Stanza → Bool
  | .scrypt _ => true
  | _ => false

section

variable {C : Crypto} {ids : List (Bytes 32)} {ss : List Stanza} {s : Stanza}
  {st st' : MatchState}

/-- What a round notes of a stanza. -/
theorem matchStanza_notes (h : matchStanza C ids s st = .ok st') :
    st'.s = some s ∧ st'.n = st.n ∧ st'.seenscrypt = (st.seenscrypt || s.isScrypt) := by
  cases s with
  | scrypt arg =>
    rw [← Except.ok.inj h]
    exact ⟨rfl, rfl, (Bool.or_true _).symm⟩
  | unknown =>
    rw [← Except.ok.inj h]
    exact ⟨rfl, rfl, (Bool.or_false _).symm⟩
  | x25519 arg =>
    unfold matchStanza at h
    simp only at h
    split at h
    · rw [← Except.ok.inj h]
      exact ⟨rfl, rfl, (Bool.or_false _).symm⟩
    · split at h
      · cases h
      · rw [← Except.ok.inj h]
        exact ⟨rfl, rfl, (Bool.or_false _).symm⟩
      · rw [← Except.ok.inj h]
        exact ⟨rfl, rfl, (Bool.or_false _).symm⟩

theorem matchStanzas_cons :
    matchStanzas C ids (s :: ss) st = .ok st' ↔
      ∃ st₁, matchStanza C ids s st = .ok st₁ ∧
        matchStanzas C ids ss { st₁ with n := st₁.n + 1 } = .ok st' := by
  rw [matchStanzas]
  rcases h : matchStanza C ids s st with e | st₁
  · simp
  · simp

/-- The stanzas are counted. -/
theorem matchStanzas_count (h : matchStanzas C ids ss st = .ok st') :
    st'.n = st.n + ss.length := by
  induction ss generalizing st with
  | nil =>
    rw [← Except.ok.inj h]
    exact (Int.add_zero st.n).symm
  | cons s ss ih =>
    obtain ⟨st₁, h₁, h⟩ := matchStanzas_cons.mp h
    have hn : st₁.n = st.n := (matchStanza_notes h₁).2.1
    have hcount : st'.n = st₁.n + 1 + ss.length := ih h
    rw [List.length_cons]
    omega

theorem matchStanzas_seen (h : matchStanzas C ids ss st = .ok st') :
    st'.seenscrypt = (st.seenscrypt || ss.any Stanza.isScrypt) := by
  induction ss generalizing st with
  | nil =>
    rw [← Except.ok.inj h]
    exact (Bool.or_false _).symm
  | cons s ss ih =>
    obtain ⟨st₁, h₁, h⟩ := matchStanzas_cons.mp h
    have hseen : st'.seenscrypt = (st₁.seenscrypt || ss.any Stanza.isScrypt) :=
      @ih { st₁ with n := st₁.n + 1 } h
    rw [hseen, (matchStanza_notes h₁).2.2, Bool.or_assoc]
    rfl

/-- The stanza that is left in `s` is the last one. -/
theorem matchStanzas_last (h : matchStanzas C ids ss st = .ok st') :
    st'.s = ss.getLast?.or st.s := by
  induction ss generalizing st with
  | nil =>
    rw [← Except.ok.inj h]
    rfl
  | cons s ss ih =>
    obtain ⟨st₁, h₁, h⟩ := matchStanzas_cons.mp h
    have hlast : st'.s = ss.getLast?.or st₁.s := @ih { st₁ with n := st₁.n + 1 } h
    rw [hlast, (matchStanza_notes h₁).1, List.getLast?_cons]
    cases ss.getLast? with
    | none => rfl
    | some s' => rfl

/-- Behind a hit the file key stays. -/
theorem matchStanzas_found (hno : ss.any Stanza.isScrypt = false) (hst : st.found = true) :
    ∃ st', matchStanzas C ids ss st = .ok st' ∧ st'.found = true ∧ st'.filekey = st.filekey := by
  induction ss generalizing st with
  | nil => exact ⟨st, rfl, hst, rfl⟩
  | cons s ss ih =>
    rw [List.any_cons, Bool.or_eq_false_iff] at hno
    have hround : ∃ st₁, matchStanza C ids s st = .ok st₁ ∧ st₁.found = true ∧
        st₁.filekey = st.filekey := by
      cases s with
      | scrypt arg => cases hno.1
      | unknown => exact ⟨_, rfl, hst, rfl⟩
      | x25519 arg =>
        unfold matchStanza
        simp only
        rw [if_pos hst]
        exact ⟨_, rfl, hst, rfl⟩
    obtain ⟨st₁, h₁, hfound, hkey⟩ := hround
    obtain ⟨st', h, hfound', hkey'⟩ := @ih { st₁ with n := st₁.n + 1 } hno.2 hfound
    exact ⟨st', matchStanzas_cons.mpr ⟨st₁, h₁, h⟩, hfound', hkey'.trans hkey⟩

/-- Before a hit the loop looks for the first pair that gives a file key. -/
theorem matchStanzas_iff (hno : ss.any Stanza.isScrypt = false) (hst : st.found = false)
    (filekey : Bytes 16) :
    (∃ st', matchStanzas C ids ss st = .ok st' ∧ st'.found = true ∧ st'.filekey = filekey) ↔
      Unlocks C ids ss filekey := by
  induction ss generalizing st with
  | nil =>
    constructor
    · intro ⟨st', h, hfound, _⟩
      rw [← Except.ok.inj h, hst] at hfound
      cases hfound
    · exact fun h => absurd h not_firstHit_nil
  | cons s ss ih =>
    rw [List.any_cons, Bool.or_eq_false_iff] at hno
    cases s with
    | scrypt arg => cases hno.1
    | unknown => exact ih hno.2 hst
    | x25519 arg =>
      have hfound : ¬ st.found = true := by simp [hst]
      unfold Unlocks
      rw [tries, firstHit_append, firstHit_map, noHit_map, matchStanzas]
      show (∃ st', _) ↔ FirstHit (x25519getkey C arg) ids filekey ∨
        (NoHit (x25519getkey C arg) ids ∧ Unlocks C ids ss filekey)
      rw [← findx25519_some, ← findx25519_none]
      unfold matchStanza
      simp only
      rw [if_neg hfound]
      rcases hfind : findx25519 C arg ids with e | _ | key
      · simp
      · have hrest := @ih { st with s := some (.x25519 arg), n := st.n + 1 } hno.2 hst
        simp [hrest]
      · obtain ⟨st', h, hfound', hkey⟩ := @matchStanzas_found C ids ss
          { st with s := some (.x25519 arg), filekey := key, found := true, n := st.n + 1 }
          hno.2 rfl
        simp only [h]
        constructor
        · intro ⟨st₁, h₁, _, hkey₁⟩
          rw [← Except.ok.inj h₁, hkey] at hkey₁
          have hsame : key = filekey := hkey₁
          rw [hsame]
          exact .inl rfl
        · intro hkey₁
          rcases hkey₁ with hkey₁ | ⟨hnone, -⟩
          · refine ⟨st', rfl, hfound', ?_⟩
            rw [hkey, Option.some.inj (Except.ok.inj hkey₁)]
          · cases hnone

end

/-! ## The file key -/

/-- What decryption is given: identities or a passphrase. -/
inductive Access where
  | identities (ids : List (Bytes 32))
  | passphrase (pass : List UInt8)

namespace Access

/-- The identities that `match` tries. -/
def ids : Access → List (Bytes 32)
  | identities ids => ids
  | passphrase _ => []

/-- The file key of the caller of `match`. -/
def key (C : Crypto) : Access → MatchState → Rd (Bytes 16)
  | identities _, st => identityKey st
  | passphrase pass, st => passphraseKey C pass st

/-- The stanzas give the file key. -/
def Yields (C : Crypto) : Access → List Stanza → Bytes 16 → Prop
  | identities ids, ss, filekey => ss.any Stanza.isScrypt = false ∧ Unlocks C ids ss filekey
  | passphrase pass, ss, filekey => ∃ arg wk, ss = [.scrypt arg] ∧ arg.cost ≤ SCRYPTMAXCOST ∧
      wrapkey C pass arg.salt arg.cost.toNat = .ok wk ∧ C.keydec wk arg.body = some filekey

/-- The state of `match` gives the file key. -/
def Gives (C : Crypto) : Access → MatchState → Bytes 16 → Prop
  | identities _, st, filekey =>
    st.found = true ∧ (∀ arg, st.s ≠ some (.scrypt arg)) ∧ st.filekey = filekey
  | passphrase pass, st, filekey => ∃ arg wk, st.found = true ∧ st.s = some (.scrypt arg) ∧
      arg.cost ≤ SCRYPTMAXCOST ∧ wrapkey C pass arg.salt arg.cost.toNat = .ok wk ∧
      C.keydec wk arg.body = some filekey

/-- Before the first stanza. -/
def start (filekey : Bytes 16) : MatchState := ⟨filekey, none, false, false, 0⟩

variable {C : Crypto} {ss : List Stanza} {junk filekey : Bytes 16}

/-- A scrypt stanza among others is noticed. -/
theorem scrypt_alone {ids : List (Bytes 32)} {st : MatchState}
    (h : matchStanzas C ids ss (start junk) = .ok st) (hn : ¬ (st.n > 1 ∧ st.seenscrypt = true))
    (hany : ss.any Stanza.isScrypt = true) : ∃ arg, ss = [.scrypt arg] := by
  have hseen : st.seenscrypt = true := by
    rw [matchStanzas_seen h, hany, Bool.or_true]
  have hcount : st.n = 0 + (ss.length : Int) := matchStanzas_count h
  have hle : ss.length ≤ 1 := by
    by_contra hlt
    exact hn ⟨by omega, hseen⟩
  cases ss with
  | nil => cases hany
  | cons s ss =>
    rw [List.length_cons] at hle
    have hnil : ss = [] := List.length_eq_zero_iff.mp (by omega)
    rw [hnil] at hany ⊢
    cases s with
    | scrypt arg => exact ⟨arg, rfl⟩
    | x25519 arg => cases hany
    | unknown => cases hany

theorem yields_identities {ids : List (Bytes 32)} :
    (∃ st, matchStanzas C ids ss (start junk) = .ok st ∧ ¬ (st.n > 1 ∧ st.seenscrypt = true) ∧
      (identities ids).Gives C st filekey) ↔ (identities ids).Yields C ss filekey := by
  constructor
  · intro ⟨st, h, hn, hfound, hscrypt, hkey⟩
    have hany : ss.any Stanza.isScrypt = false := by
      by_contra hne
      obtain ⟨arg, rfl⟩ := scrypt_alone h hn (by simpa using hne)
      exact hscrypt arg (matchStanzas_last h)
    exact ⟨hany, (matchStanzas_iff hany rfl filekey).mp ⟨st, h, hfound, hkey⟩⟩
  · intro ⟨hany, hkey⟩
    obtain ⟨st, h, hfound, hkey⟩ := (matchStanzas_iff hany (rfl : (start junk).found = false)
      filekey).mpr hkey
    refine ⟨st, h, fun hn => ?_, hfound, fun arg hs => ?_, hkey⟩
    · rw [matchStanzas_seen h, hany] at hn
      cases hn.2
    · -- the last stanza is one of them
      have hlast := matchStanzas_last h
      rw [hs, start, Option.or_none] at hlast
      have hmem := List.mem_of_getLast? hlast.symm
      have hno := List.any_eq_false.mp hany _ hmem
      exact hno rfl

theorem yields_passphrase {pass : List UInt8} :
    (∃ st, matchStanzas C [] ss (start junk) = .ok st ∧ ¬ (st.n > 1 ∧ st.seenscrypt = true) ∧
      (passphrase pass).Gives C st filekey) ↔ (passphrase pass).Yields C ss filekey := by
  constructor
  · intro ⟨st, h, hn, arg, wk, _, hs, hcost, hwk, hkey⟩
    have hlast := matchStanzas_last h
    rw [hs, start, Option.or_none] at hlast
    have hany : ss.any Stanza.isScrypt = true :=
      List.any_eq_true.mpr ⟨_, List.mem_of_getLast? hlast.symm, rfl⟩
    obtain ⟨arg', rfl⟩ := scrypt_alone h hn hany
    have harg : arg = arg' := Stanza.scrypt.inj (Option.some.inj hlast)
    rw [← harg]
    exact ⟨arg, wk, rfl, hcost, hwk, hkey⟩
  · intro ⟨arg, wk, hss, hcost, hwk, hkey⟩
    rw [hss]
    have hone : ¬ (0 + 1 : Int) > 1 := by decide
    exact ⟨_, rfl, fun hn => hone hn.1, arg, wk, rfl, rfl, hcost, hwk, hkey⟩

/-- `match` and its caller find the file key that the stanzas give. -/
theorem yields_iff (acc : Access) :
    (∃ st, matchStanzas C acc.ids ss (start junk) = .ok st ∧
      ¬ (st.n > 1 ∧ st.seenscrypt = true) ∧ acc.Gives C st filekey) ↔
      acc.Yields C ss filekey := by
  cases acc with
  | identities ids => exact yields_identities
  | passphrase pass => exact yields_passphrase

/-- A stanza of a known type gives it. -/
theorem Yields.known {acc : Access} (h : acc.Yields C ss filekey) : ∃ s ∈ ss, s ≠ .unknown := by
  cases acc with
  | identities ids =>
    refine @known_of_tries ids ss fun hnil => ?_
    have hhit := h.2
    unfold Unlocks at hhit
    rw [hnil] at hhit
    exact not_firstHit_nil hhit
  | passphrase pass =>
    obtain ⟨arg, wk, hss, -⟩ := h
    rw [hss]
    exact ⟨_, List.mem_cons_self, fun hs => by cases hs⟩

end Access

end Agecrypt
