import Agecrypt.Agec.HeaderMac
import Agecrypt.Agec.Headers
import Agecrypt.Agec.Matching
import Agecrypt.Agec.PayloadStream

/-!
# What decryption accepts

`Plaintext` says, without the parser, the buffers and the loops, which inputs
decrypt and to what: a header in the grammar, a file key that its stanzas
give, the MAC over the text of the header, a nonce, and chunks that open
under the payload key.  `age_decipher` and `age_decipher_passphrase` accept
exactly these, whatever the schedule of the reads and writes.
-/

namespace Agecrypt

open ProgE

/-! ## The header -/

/-- A round of the loop of `match`. -/
def MatchRound (C : Crypto) (ids : List (Bytes 32)) (st : MatchState) :
    MatchState ⊕ MatchState → List UInt8 → Prop
  | .inr st', t => st' = st ∧ t = stanzaEnd
  | .inl st', t => ∃ (form : StanzaForm) (st₁ : MatchState), form.Accepted ∧
      matchStanza C ids form.stanza st = .ok st₁ ∧ st₁.n < 2 ^ 31 - 1 ∧
      st' = { st₁ with n := st₁.n + 1 } ∧ t = form.text

theorem match_loopText {C : Crypto} {ids : List (Bytes 32)} {st st' : MatchState}
    {t u : List UInt8} (hn : st.n ≤ 2 ^ 31 - 1) :
    LoopText (fun st r t _ => MatchRound C ids st r t) st st' t u ↔
      ∃ forms : List StanzaForm, (∀ form ∈ forms, form.Accepted) ∧
        st.n + forms.length ≤ 2 ^ 31 - 1 ∧
        matchStanzas C ids (forms.map StanzaForm.stanza) st = .ok st' ∧
        t = (forms.map StanzaForm.text).flatten ++ stanzaEnd := by
  constructor
  · intro h
    induction h with
    | stop hb =>
      obtain ⟨hst, ht⟩ := hb
      refine ⟨[], fun form hform => absurd hform List.not_mem_nil, ?_, by rw [hst]; rfl, ht⟩
      rw [List.length_nil]
      omega
    | more hb _ ih =>
      obtain ⟨form, st₁, hacc, hround, hcount, hst, ht⟩ := hb
      have hnext : ({ st₁ with n := st₁.n + 1 } : MatchState).n = st₁.n + 1 := rfl
      rw [hst, hnext] at ih
      obtain ⟨forms, hall, hlen, hrest, ht'⟩ := ih (by omega)
      refine ⟨form :: forms, List.forall_mem_cons.mpr ⟨hacc, hall⟩, ?_, ?_, ?_⟩
      · have hsame := (matchStanza_notes hround).2.1
        rw [List.length_cons]
        push_cast
        omega
      · rw [List.map_cons]
        exact matchStanzas_cons.mpr ⟨_, hround, hrest⟩
      · rw [ht, ht', List.map_cons, List.flatten_cons, List.append_assoc]
  · intro ⟨forms, hall, hlen, hmatch, ht⟩
    induction forms generalizing st t with
    | nil =>
      refine .stop ⟨(Except.ok.inj hmatch).symm, ?_⟩
      exact ht
    | cons form forms ih =>
      obtain ⟨hacc, hall'⟩ := List.forall_mem_cons.mp hall
      rw [List.map_cons] at hmatch
      obtain ⟨st₁, hround, hrest⟩ := matchStanzas_cons.mp hmatch
      have hsame := (matchStanza_notes hround).2.1
      rw [List.length_cons] at hlen
      push_cast at hlen
      rw [List.map_cons, List.flatten_cons, List.append_assoc] at ht
      rw [ht]
      have hfirst : MatchRound C ids st (.inl { st₁ with n := st₁.n + 1 }) form.text :=
        ⟨form, st₁, hacc, hround, by omega, rfl, rfl⟩
      have hnext : ({ st₁ with n := st₁.n + 1 } : MatchState).n = st.n + 1 := by
        rw [← hsame]
      exact .more hfirst (ih (by omega) hall' (by omega) hrest rfl)

section

variable {σ : Type} {At : σ → List UInt8 → Prop} {h : Handler RdOp RdRet σ}

/-- `return ewrap(outer, e)` is no success. -/
theorem not_runs_ewrap {α : Type} (outer e : String) (s : σ) (a : α) (s' : σ) :
    ¬ Runs h (Rd.ewrap outer e >>= fun e => throw e : Rd α) s (.ok a) s' := by
  intro hr
  obtain ⟨e', s₁, -, hr'⟩ := runs_op_bind.mp hr
  cases (runs_throw.mp hr').1

/-- A round counts its stanza. -/
theorem recognizes_count (hno : ∀ s, h .overflow s = none) (st : MatchState) :
    Recognizes At h (do
      let n ← incint st.n
      return .inl { st with n } : Rd (MatchState ⊕ MatchState)) fun r t _ =>
        st.n < 2 ^ 31 - 1 ∧ r = .inl { st with n := st.n + 1 } ∧ t = [] := by
  unfold incint
  split
  · rename_i hn
    refine (Recognizes.pure (Sum.inl { st with n := st.n + 1 })).congr fun r t u => ?_
    exact ⟨fun hr => ⟨hn, hr⟩, And.right⟩
  · rename_i hn
    refine (Recognizes.never fun s l r s' _ hr => ?_).congr fun r t u => ?_
    · obtain ⟨n, s₁, ho, -⟩ := runs_op_bind.mp hr
      rw [hno] at ho
      cases ho
    · exact ⟨False.elim, fun hr => hn hr.1⟩

variable (hd : Delivers At h) (hno : ∀ s, h .overflow s = none) (C : Crypto)

include hd hno

theorem recognizes_matchIds (ids : List (Bytes 32)) (junk : Bytes 16) :
    Recognizes At h (matchIds C ids junk) fun st t _ => ∃ forms : List StanzaForm,
      (∀ form ∈ forms, form.Accepted) ∧ forms.length < 2 ^ 31 ∧
      matchStanzas C ids (forms.map StanzaForm.stanza) (Access.start junk) = .ok st ∧
      ¬ (st.n > 1 ∧ st.seenscrypt = true) ∧
      t = (forms.map StanzaForm.text).flatten ++ stanzaEnd := by
  unfold matchIds
  refine Recognizes.congr (.bind_to
    (fun st st' t _ => ¬ (st.n > 1 ∧ st.seenscrypt = true) ∧ st' = st ∧ t = [])
    (Recognizes.loop (B := fun st r t _ => MatchRound C ids st r t) (fun st => ?_)
      (Access.start junk)) fun st => ?_) fun st t u => ?_
  · refine Recognizes.congr (.attempt_bind_to (fun s r t _ => t = [] ∧
      ((s = none ∧ r = .inr st) ∨
        ∃ s' st₁, s = some s' ∧ matchStanza C ids s' st = .ok st₁ ∧ st₁.n < 2 ^ 31 - 1 ∧
          r = .inl { st₁ with n := st₁.n + 1 }))
      (recognizes_getstanza hd) (fun e => not_runs_ewrap _ e) fun s => ?_) fun r t u => ?_
    · cases s with
      | none =>
        refine (Recognizes.pure _).congr fun r t u => ?_
        constructor
        · exact fun ⟨hr, ht⟩ => ⟨ht, .inl ⟨rfl, hr⟩⟩
        · intro ⟨ht, hr⟩
          rcases hr with ⟨-, hr⟩ | ⟨s, st', hs, -⟩
          · exact ⟨hr, ht⟩
          · cases hs
      | some s =>
        dsimp only
        rcases hmatch : matchStanza C ids s st with e | st'
        · refine (Recognizes.never fun s l a s' _ =>
            not_runs_ewrap _ e s a s').congr fun r t u => ?_
          constructor
          · exact False.elim
          · intro ⟨_, hr⟩
            rcases hr with ⟨hs, -⟩ | ⟨s', st', hs, hok, -⟩
            · cases hs
            · rw [← Option.some.inj hs, hmatch] at hok
              cases hok
        · refine (recognizes_count hno st').congr fun r t u => ?_
          constructor
          · exact fun ⟨hn, hr, ht⟩ => ⟨ht, .inr ⟨s, st', rfl, hmatch, hn, hr⟩⟩
          · intro ⟨ht, hr⟩
            rcases hr with ⟨hs, -⟩ | ⟨s', st₁, hs, hok, hn, hr⟩
            · cases hs
            · rw [← Option.some.inj hs, hmatch] at hok
              rw [Except.ok.inj hok]
              exact ⟨hn, hr, ht⟩
    · constructor
      · intro ⟨s, t₁, t₂, ht, hs, hnil, hr⟩
        rw [hnil, List.append_nil] at ht
        rw [ht]
        rcases hr with ⟨hnone, hr⟩ | ⟨s', st₁, hsome, hok, hn, hr⟩
        · rw [hr]
          rcases hs with ⟨-, ht₁⟩ | ⟨form, -, hsome, -⟩
          · exact ⟨rfl, ht₁⟩
          · rw [hnone] at hsome
            cases hsome
        · rw [hr]
          rcases hs with ⟨hnone, -⟩ | ⟨form, hacc, hform, ht₁⟩
          · rw [hsome] at hnone
            cases hnone
          · rw [hsome] at hform
            rw [Option.some.inj hform] at hok
            exact ⟨form, st₁, hacc, hok, hn, rfl, ht₁⟩
      · intro hround
        cases r with
        | inr st' =>
          obtain ⟨hst, ht⟩ := hround
          exact ⟨none, t, [], (List.append_nil t).symm, .inl ⟨rfl, ht⟩, rfl,
            .inl ⟨rfl, by rw [hst]⟩⟩
        | inl st' =>
          obtain ⟨form, st₁, hacc, hok, hn, hst, ht⟩ := hround
          exact ⟨some form.stanza, t, [], (List.append_nil t).symm, .inr ⟨form, hacc, rfl, ht⟩, rfl,
            .inr ⟨_, st₁, rfl, hok, hn, by rw [hst]⟩⟩
  · refine (Recognizes.ite (.throw _) (.pure _)).congr fun st' t u => ?_
    split
    · rename_i hmix
      exact ⟨False.elim, fun h => h.1 hmix⟩
    · rename_i hmix
      exact ⟨fun h => ⟨hmix, h⟩, And.right⟩
  · have hzero : (Access.start junk).n = 0 := rfl
    have hstart : (Access.start junk).n ≤ 2 ^ 31 - 1 := by omega
    constructor
    · intro ⟨st', t₁, t₂, ht, hloop, hn, hst, hnil⟩
      obtain ⟨forms, hall, hlen, hmatch, ht₁⟩ := (match_loopText hstart).mp hloop
      rw [hnil, List.append_nil] at ht
      exact ⟨forms, hall, by omega, by rw [hst]; exact hmatch, by rw [hst]; exact hn, ht.trans ht₁⟩
    · intro ⟨forms, hall, hlen, hmatch, hn, ht⟩
      exact ⟨st, t, [], (List.append_nil t).symm,
        (match_loopText hstart).mpr ⟨forms, hall, by omega, hmatch, ht⟩, hn, rfl, rfl⟩

/-- The header up to its end. -/
theorem recognizes_openHeader (ids : List (Bytes 32)) (junk : Bytes 16) :
    Recognizes At h (openHeader C ids junk) fun st t _ => ∃ forms : List StanzaForm,
      (∀ form ∈ forms, form.Accepted) ∧ forms.length < 2 ^ 31 ∧
      matchStanzas C ids (forms.map StanzaForm.stanza) (Access.start junk) = .ok st ∧
      ¬ (st.n > 1 ∧ st.seenscrypt = true) ∧ t = macText forms := by
  unfold openHeader
  refine Recognizes.congr (.attempt_bind (recognizes_getversion hd) (fun e => not_runs_ewrap _ e)
    fun _ => recognizes_matchIds hd hno C ids junk) fun st t u => ?_
  constructor
  · rintro ⟨_, t₁, t₂, ht, ht₁, forms, hall, hlen, hmatch, hn, ht₂⟩
    refine ⟨forms, hall, hlen, hmatch, hn, ?_⟩
    rw [ht, ht₁, ht₂, macText, List.append_assoc]
  · rintro ⟨forms, hall, hlen, hmatch, hn, ht⟩
    refine ⟨(), versionLine, _, ?_, rfl, forms, hall, hlen, hmatch, hn, rfl⟩
    rw [ht, macText, List.append_assoc]

omit hd hno in
theorem recognizes_identityKey (ids : List (Bytes 32)) (st : MatchState) :
    Recognizes At h (identityKey st) fun filekey t _ =>
      t = [] ∧ (Access.identities ids).Gives C st filekey := by
  obtain ⟨filekey, s, found, seenscrypt, n⟩ := st
  cases found with
  | false =>
    refine (Recognizes.throw _).congr fun k t u => ⟨False.elim, fun hg => ?_⟩
    cases hg.2.1
  | true =>
    have hreturn : (∀ arg, s ≠ some (.scrypt arg)) → Recognizes At h (pure filekey : Rd (Bytes 16))
        fun k t _ => t = [] ∧
          (Access.identities ids).Gives C ⟨filekey, s, true, seenscrypt, n⟩ k := by
      intro hs
      refine (Recognizes.pure filekey).congr fun k t u => ?_
      exact ⟨fun hg => ⟨hg.2, rfl, hs, hg.1.symm⟩, fun hg => ⟨hg.2.2.2.symm, hg.1⟩⟩
    rcases s with _ | arg | arg | _
    · exact hreturn fun arg hs => by cases hs
    · refine (Recognizes.throw _).congr fun k t u => ⟨False.elim, fun hg => ?_⟩
      exact hg.2.2.1 arg rfl
    · exact hreturn fun arg hs => by cases hs
    · exact hreturn fun arg hs => by cases hs

omit hd hno in
theorem recognizes_passphraseKey (pass : List UInt8) (st : MatchState) :
    Recognizes At h (passphraseKey C pass st) fun filekey t _ =>
      t = [] ∧ (Access.passphrase pass).Gives C st filekey := by
  obtain ⟨filekey, s, found, seenscrypt, n⟩ := st
  have hthrow : ∀ e : String, (∀ arg, ¬ (found = true ∧ s = some (.scrypt arg))) →
      Recognizes At h (throw e : Rd (Bytes 16)) fun k t _ => t = [] ∧
        (Access.passphrase pass).Gives C ⟨filekey, s, found, seenscrypt, n⟩ k := by
    intro e hno
    refine (Recognizes.throw e).congr fun k t u => ⟨False.elim, fun hg => ?_⟩
    obtain ⟨-, arg, wk, hfound, hs, -⟩ := hg
    exact hno arg ⟨hfound, hs⟩
  cases found with
  | false => exact hthrow _ fun arg hs => by cases hs.1
  | true =>
    rcases s with _ | arg | arg | _
    · exact hthrow _ fun arg hs => by cases hs.2
    · unfold passphraseKey
      dsimp only
      -- the pair of a cost and a key that the passphrase opens
      have hgives : ∀ k, (Access.passphrase pass).Gives C
          ⟨filekey, some (.scrypt arg), true, seenscrypt, n⟩ k ↔
          arg.cost ≤ SCRYPTMAXCOST ∧ ∃ wk, wrapkey C pass arg.salt arg.cost.toNat = .ok wk ∧
            C.keydec wk arg.body = some k := by
        intro k
        constructor
        · intro ⟨arg', wk, _, hs, hcost, hwk, hkey⟩
          have harg : arg = arg' := Stanza.scrypt.inj (Option.some.inj hs)
          rw [harg]
          exact ⟨hcost, wk, hwk, hkey⟩
        · intro ⟨hcost, wk, hwk, hkey⟩
          exact ⟨arg, wk, rfl, rfl, hcost, hwk, hkey⟩
      simp only [hgives]
      split
      · rename_i hcost
        refine (Recognizes.throw _).congr fun k t u => ⟨False.elim, fun hg => ?_⟩
        have := hg.2.1
        omega
      rename_i hcost
      have hle : arg.cost ≤ SCRYPTMAXCOST := by omega
      unfold scryptgetkey
      rcases hwk : wrapkey C pass arg.salt arg.cost.toNat with e | wk
      · refine (Recognizes.never fun s l k s' _ hr => ?_).congr fun k t u =>
          ⟨False.elim, fun hg => ?_⟩
        · rcases runs_bind.mp hr with ⟨e', -, he'⟩ | ⟨key, t, hr', -⟩
          · cases he'
          · exact not_runs_ewrap _ _ _ _ _ hr'
        · obtain ⟨-, -, wk, hwk', -⟩ := hg
          cases hwk'
      · refine Recognizes.congr (.bind_to (fun key k t _ => t = [] ∧ key = some k)
          (.pure (C.keydec wk arg.body)) fun key => ?_) fun k t u => ?_
        · cases key with
          | none => exact (Recognizes.throw _).congr fun k t u =>
            ⟨False.elim, fun hg => by cases hg.2⟩
          | some key =>
            refine (Recognizes.pure key).congr fun k t u => ?_
            exact ⟨fun hg => ⟨hg.2, congrArg some hg.1.symm⟩,
              fun hg => ⟨(Option.some.inj hg.2).symm, hg.1⟩⟩
        · constructor
          · intro ⟨key, t₁, t₂, ht, ⟨hkey, hnil₁⟩, hnil₂, hk⟩
            exact ⟨by rw [ht, hnil₁, hnil₂]; rfl, hle, wk, rfl, hkey.symm.trans hk⟩
          · intro ⟨ht, _, wk', hwk', hkey⟩
            rw [← Except.ok.inj hwk'] at hkey
            exact ⟨_, t, [], (List.append_nil t).symm, ⟨rfl, ht⟩, rfl, hkey⟩
    · exact hthrow _ fun arg hs => by cases hs.2
    · exact hthrow _ fun arg hs => by cases hs.2

omit hd hno in
/-- The file key that is taken from the state of `match`. -/
theorem recognizes_key (acc : Access) (st : MatchState) :
    Recognizes At h (acc.key C st) fun filekey t _ => t = [] ∧ acc.Gives C st filekey := by
  cases acc with
  | identities ids => exact recognizes_identityKey C ids st
  | passphrase pass => exact recognizes_passphraseKey C pass st

end

/-! ## The MAC -/

/-- Some bits differ if some byte does. -/
theorem ctEq_iff {a b : List UInt8} (h : a.length = b.length) : ctEq a b = true ↔ a = b := by
  have hfold : ∀ (cs : List UInt8) (acc : UInt8),
      cs.foldl (· ||| ·) acc = 0 ↔ acc = 0 ∧ ∀ c ∈ cs, c = 0 := by
    intro cs
    induction cs with
    | nil => intro acc; simp
    | cons c cs ih =>
      intro acc
      rw [List.foldl_cons, ih, List.forall_mem_cons, ← and_assoc]
      apply and_congr_left
      intro _
      exact UInt8.or_eq_zero_iff
  unfold ctEq
  rw [beq_iff_eq, hfold]
  simp only [true_and]
  induction a generalizing b with
  | nil =>
    cases b with
    | nil => simp
    | cons y b => cases h
  | cons x a ih =>
    cases b with
    | nil => cases h
    | cons y b =>
      rw [List.zipWith_cons_cons, List.forall_mem_cons, List.cons.injEq]
      exact and_congr UInt8.xor_eq_zero_iff (ih (Nat.succ.inj h))

section

variable {σ : Type} {t t' : σ}

theorem runs_validmac {h : Handler AgeOp AgeRet σ} {C : Crypto} {filekey : Bytes 16}
    {valid : Bool} :
    Runs h (validmac C filekey) t (.ok valid) t' ↔
      ∃ mac data, Runs h macArgs t (.ok (mac, data)) t' ∧
        valid = ctEq mac.val (C.mac data filekey).val := by
  unfold validmac
  constructor
  · intro hr
    rcases runs_bind.mp hr with ⟨e, -, he⟩ | ⟨args, t₁, hargs, hr'⟩
    · cases he
    · obtain ⟨hok, rfl⟩ := runs_pure.mp hr'
      exact ⟨args.1, args.2, hargs, Except.ok.inj hok⟩
  · intro ⟨mac, data, hargs, hvalid⟩
    refine (Runs.bind_ok hargs).mpr (runs_pure.mpr ⟨?_, rfl⟩)
    rw [hvalid]

/-- `validatemac` succeeds when the two MACs are equal. -/
theorem runs_validatemac {h : Handler AgeOp AgeRet σ} {C : Crypto} {filekey : Bytes 16} :
    Runs h (validatemac C filekey) t (.ok ()) t' ↔
      ∃ mac data, Runs h macArgs t (.ok (mac, data)) t' ∧ mac = C.mac data filekey := by
  have heq : ∀ (mac : Bytes 32) (data : List UInt8),
      ctEq mac.val (C.mac data filekey).val = true ↔ mac = C.mac data filekey := by
    intro mac data
    rw [ctEq_iff (by rw [mac.size_eq, (C.mac data filekey).size_eq])]
    exact ⟨Bytes.ext, fun he => by rw [he]⟩
  unfold validatemac
  constructor
  · intro hr
    rcases runs_bind.mp hr with ⟨e, -, he⟩ | ⟨valid, t₁, hvalid, hr⟩
    · cases he
    obtain ⟨mac, data, hargs, rfl⟩ := runs_validmac.mp (runs_age_wrapped.mp hvalid)
    split at hr
    · cases (runs_throw.mp hr).1
    · rename_i hne
      obtain ⟨-, rfl⟩ := runs_pure.mp hr
      exact ⟨mac, data, hargs, (heq _ _).mp (not_not.mp hne)⟩
  · intro ⟨mac, data, hargs, hmac⟩
    have hvalid : Runs h (validmac C filekey) t (.ok _) t' :=
      runs_validmac.mpr ⟨mac, data, hargs, rfl⟩
    refine (Runs.bind_ok (runs_age_wrapped.mpr hvalid)).mpr ?_
    rw [if_neg (not_not.mpr ((heq mac data).mpr hmac))]
    exact runs_pure.mpr ⟨rfl, rfl⟩

end

/-! ## The payload -/

/-- A nonce, and chunks that open to `p` under the payload key. -/
def PayloadText (C : Crypto) (filekey : Bytes 16) (text p : List UInt8) : Prop :=
  ∃ (plnonce : Bytes 16) (body : List UInt8), text = plnonce.val ++ body ∧
    Opens C (C.payloadkey filekey plnonce) 0 body p

theorem PayloadText.unique {C : Crypto} {filekey : Bytes 16} {text p q : List UInt8}
    (hp : PayloadText C filekey text p) (hq : PayloadText C filekey text q) : p = q := by
  obtain ⟨plnonce, body, ht, hopens⟩ := hp
  obtain ⟨plnonce', body', ht', hopens'⟩ := hq
  rw [ht] at ht'
  obtain ⟨hnonce, hbody⟩ := List.append_inj ht' (by rw [plnonce.size_eq, plnonce'.size_eq])
  rw [← Bytes.ext hnonce, ← hbody] at hopens'
  exact hopens.unique hopens'

/-- A wrapped error, on the machine. -/
theorem machine_wrapped {α : Type} {outer e : String} {p : Rw α} {am am' : Am}
    (h : Runs amHandler p am (.error e) am') :
    ∃ e' am'', Runs amHandler (Rw.wrapped outer p) am (.error e') am'' :=
  ⟨_, _, runs_attempt_bind.mpr ⟨_, _, h, runs_op_bind.mpr ⟨_, _, rfl, runs_throw.mpr ⟨rfl, rfl⟩⟩⟩⟩

section

variable {C : Crypto} {filekey : Bytes 16} {am : Am} {s : Src} {k : Snk}

/-- The nonce of the payload, if there is all of it. -/
theorem getplnonce_runs :
    (s.rest.length < 16 ∧ ∃ e am', Runs amHandler (Rw.rd getplnonce) (am.at s k) (.error e) am') ∨
      ∃ plnonce : Bytes 16, s.rest = plnonce.val ++ s.rest.drop 16 ∧
        Runs amHandler (Rw.rd getplnonce) (am.at s k) (.ok plnonce) (am.at (s.bread 16).2 k) := by
  by_cases hlen : (s.rest.take 16).length = 16
  · obtain ⟨plnonce, hval⟩ : ∃ plnonce : Bytes 16, plnonce.val = s.rest.take 16 := ⟨⟨_, hlen⟩, rfl⟩
    refine .inr ⟨plnonce, by rw [hval, List.take_append_drop], ?_⟩
    refine runs_rd.mpr (runs_op_bind.mpr ⟨_, _, amRd_bread 16, ?_⟩)
    have hof : Bytes.ofList? 16 (s.bread 16).1 = some plnonce := by
      rw [Src.bread, ← hval]
      exact Bytes.ofList?_val plnonce
    simp only [hof]
    exact runs_pure.mpr ⟨rfl, rfl⟩
  · rw [List.length_take] at hlen
    refine .inl ⟨by omega, "payload nonce is too short", am.at (s.bread 16).2 k, ?_⟩
    refine runs_rd.mpr (runs_op_bind.mpr ⟨_, _, amRd_bread 16, ?_⟩)
    have hof : Bytes.ofList? 16 (s.bread 16).1 = none := by
      unfold Bytes.ofList?
      rw [dif_neg]
      show ¬ (s.rest.take 16).length = 16
      rw [List.length_take]
      exact hlen
    simp only [hof]
    exact runs_throw.mpr ⟨rfl, rfl⟩

/-- `decipher_payload` behind the MAC, on the machine. -/
theorem decipherBody_runs {pre : List UInt8} (hs : s.Probed) (hk : k.Has pre []) :
    (∃ p am', PayloadText C filekey s.rest p ∧
        Runs amHandler (decipherBody C filekey) (am.at s k) (.ok ()) am' ∧
        am'.snk.sent = pre ++ Snk.text k.isarmor p) ∨
      ((∀ am', ¬ Runs amHandler (decipherBody C filekey) (am.at s k) (.ok ()) am') ∧
        ∀ p, ¬ PayloadText C filekey s.rest p) := by
  unfold decipherBody
  rcases @getplnonce_runs am s k with ⟨hlen, e, am', hr⟩ | ⟨plnonce, hrest, hr⟩
  · obtain ⟨e', am'', hr'⟩ := @machine_wrapped _ "error parsing header" _ _ _ _ hr
    refine .inr ⟨fun am₁ hok => ?_, fun p hp => ?_⟩
    · cases ((Runs.bind_error hr').mp hok).1
    · obtain ⟨plnonce, body, ht, -⟩ := hp
      rw [ht, List.length_append, plnonce.size_eq] at hlen
      omega
  have hnonce := @runs_rw_wrapped _ _ _ _ _ _ "error parsing header" _ |>.mpr hr
  have hlong : 35 ≤ CHUNKLEN + TAGLEN := by decide
  have hprobed : (s.bread 16).2.Probed := Src.probed_call (.bread 16) s hs
  have hshort : (s.bread 16).2.probe.eof = true →
      (s.bread 16).2.rest.length ≤ CHUNKLEN + TAGLEN := by
    intro he
    have := hprobed he
    omega
  have htext : ∀ p, PayloadText C filekey s.rest p ↔
      Opens C (C.payloadkey filekey plnonce) 0 (s.rest.drop 16) p := by
    intro p
    constructor
    · intro ⟨plnonce', body, ht, hopens⟩
      rw [hrest] at ht
      obtain ⟨hval, hbody⟩ := List.append_inj ht (by rw [plnonce.size_eq, plnonce'.size_eq])
      rw [Bytes.ext hval, hbody]
      exact hopens
    · exact fun hopens => ⟨plnonce, _, hrest, hopens⟩
  have hgoes : Goes C (C.payloadkey filekey plnonce)
      (pldecrypt C (C.payloadkey filekey plnonce)) am (s.bread 16).2 k pre [] 0 :=
    pldecrypt_runs hshort hk
  -- a run that succeeds has opened the payload
  have hpart : ∀ am', Runs amHandler
      (do Rw.wrapped "failed to decrypt" (pldecrypt C (C.payloadkey filekey plnonce))
          if ← Rw.bflush then return () else Rw.failed) (am.at (s.bread 16).2 k) (.ok ()) am' →
      ∃ am₁, Runs amHandler (pldecrypt C (C.payloadkey filekey plnonce)) (am.at (s.bread 16).2 k)
        (.ok ()) am₁ := by
    intro am' hok
    rcases runs_bind.mp hok with ⟨e, -, he⟩ | ⟨_, am₁, hpl, -⟩
    · cases he
    · exact ⟨am₁, runs_rw_wrapped.mp hpl⟩
  cases hgoes with
  | @opens s' k' p hpl harm hopens hhas =>
    have hpl' := @runs_rw_wrapped _ _ _ _ _ _ "failed to decrypt" _ |>.mpr hpl
    refine .inl ⟨p, { am.at s' k' with snk := k'.bflush }, (htext p).mpr hopens, ?_, ?_⟩
    · refine (Runs.bind_ok hnonce).mpr ((Runs.bind_ok hpl').mpr ?_)
      exact runs_op_bind.mpr ⟨true, _, rfl, runs_pure.mpr ⟨rfl, rfl⟩⟩
    · rw [← harm]
      exact hhas.bflush.1
  | fails hpl hno _ =>
    refine .inr ⟨fun am₁ hok => ?_, fun p hp => hno p ((htext p).mp hp)⟩
    obtain ⟨am₂, hok⟩ := hpart am₁ ((Runs.bind_ok hnonce).mp hok)
    cases (hok.unique hpl).1
  | overruns hnone hover =>
    refine .inr ⟨fun am₁ hok => ?_, fun p hp => ((htext p).mp hp).not_overruns hover⟩
    obtain ⟨am₂, hok⟩ := hpart am₁ ((Runs.bind_ok hnonce).mp hok)
    exact hnone _ am₂ hok

end

/-- `decipher_payload` behind the MAC succeeds on the texts of a payload, and
sends what they open to. -/
theorem decipherBody_spec {δ : Type} [Descr δ] {ch : Chan δ} {f : Feed ch} {C : Crypto}
    {filekey : Bytes 16} {io : Io δ} {k : Snk} {u pre : List UInt8} (hroom : ∀ n, ch.room n)
    (h : Supply f k io u) (hk : k.Has pre []) :
    (∀ p, PayloadText C filekey u p →
        ∃ io', Runs rwHandler (decipherBody C filekey) io (.ok ()) io' ∧
          ch.accepted io'.dev = pre ++ Snk.text k.isarmor p) ∧
      ∀ io', Runs rwHandler (decipherBody C filekey) io (.ok ()) io' →
        ∃ p, PayloadText C filekey u p ∧ ch.accepted io'.dev = pre ++ Snk.text k.isarmor p := by
  obtain ⟨s, hf, hs, rfl⟩ := h.source
  obtain ⟨am, ham⟩ : ∃ am : Am, am = ⟨.src s, k, ch.draws io.dev, io.ebuf, Descr.strerror io.dev⟩ :=
    ⟨_, rfl⟩
  have hrel : Rel ch io (am.at s k) := by
    rw [ham]
    exact ⟨f.live hf.ready, .inr h.allocates, hf.fd, .src f hf.ready hf.src, h.sink, rfl, rfl, rfl⟩
  rcases @decipherBody_runs C filekey am s k pre hs hk with ⟨p, am', hp, hrun, hsent⟩ | ⟨hnot, hno⟩
  · obtain ⟨io₁, hrun₁, hrel₁, -⟩ :=
      hrun.simulation (machine_simulates ch) ⟨hrel, h.steady⟩ (hroom _)
    have hout : ch.accepted io₁.dev = pre ++ Snk.text k.isarmor p := hrel₁.snk.sent.trans hsent
    constructor
    · intro q hq
      rw [hq.unique hp]
      exact ⟨io₁, hrun₁, hout⟩
    · intro io' hr
      obtain ⟨-, rfl⟩ := hr.unique hrun₁
      exact ⟨p, hp, hout⟩
  · constructor
    · exact fun p hp => absurd hp (hno p)
    · intro io' hr
      obtain ⟨am', hr', -⟩ := machine_of_runs hroom hrel h.steady hr
      exact absurd hr' (hnot am')

/-! ## Decryption -/

/-- `age_decipher` or `age_decipher_passphrase`. -/
def decipher (C : Crypto) (acc : Access) (junk : Bytes 16) : Age Unit := do
  let st ← Age.rd (openHeader C acc.ids junk)
  let filekey ← Age.rd (acc.key C st)
  decipherPayload C filekey

theorem decipher_identities (C : Crypto) (ids : List (Bytes 32)) (junk : Bytes 16) :
    decipher C (.identities ids) junk = ageDecipher C ids junk := rfl

theorem decipher_passphrase (C : Crypto) (pass : List UInt8) (junk : Bytes 16) :
    decipher C (.passphrase pass) junk = ageDecipherPassphrase C pass junk := rfl

/-- The input `d` decrypts to `p`: it is a header in the grammar, with the
MAC over its text under the file key that its stanzas give, and a payload. -/
def Plaintext (C : Crypto) (acc : Access) (d p : List UInt8) : Prop :=
  ∃ (forms : List StanzaForm) (filekey : Bytes 16) (text : List UInt8),
    (∀ form ∈ forms, form.Accepted) ∧ acc.Yields C (forms.map StanzaForm.stanza) filekey ∧
    d = headerText forms (C.mac (macText forms) filekey) ++ text ∧ PayloadText C filekey text p

/-- Headers that the counter of `match` can count, and in an armored input
those with a MAC line that is not cut by the end of the first buffer. -/
def Regular (armored : Bool) (d : List UInt8) : Prop :=
  ∀ (forms : List StanzaForm) (u : List UInt8), (∀ form ∈ forms, form.Accepted) →
    d = macText forms ++ u → forms.length < 2 ^ 31 ∧
      (armored = true → IOBUFSIZE < (macText forms).length ∨
        (macText forms).length + MACLEN ≤ IOBUFSIZE)

theorem headerText_eq (forms : List StanzaForm) (mac : Bytes 32) :
    headerText forms mac = macText forms ++ macLine mac := by
  simp only [headerText, macLine, List.append_assoc]

theorem macText_ne_nil (forms : List StanzaForm) : macText forms ≠ [] := by
  intro h
  have hlen := congrArg List.length h
  have hversion : versionLine.length = 22 := by decide +kernel
  rw [macText, List.length_append, List.length_append, hversion, List.length_nil] at hlen
  omega

/-- A header is no armored text. -/
theorem macText_binary (forms : List StanzaForm) (u : List UInt8) :
    ¬ armorfirst <+: macText forms ++ u := by
  intro hpre
  obtain ⟨t, ht⟩ := hpre
  simp only [macText, List.append_assoc] at ht
  have hhead := congrArg List.head? ht
  rw [List.head?_append, List.head?_append, show armorfirst.head? = some 45 by decide,
    show versionLine.head? = some 97 by decide] at hhead
  exact absurd (Option.some.inj hhead) (by decide)

/-- A stanza of a known type holds a value of 32 bytes. -/
theorem length_known {form : StanzaForm} (h : form.stanza ≠ .unknown) : 43 ≤ form.text.length := by
  have hval : ∀ b : Bytes 32, (base64encode b.val false).length = 43 := by
    intro b
    rw [length_plain, b.size_eq]
    decide
  cases form with
  | x25519 share body =>
    simp only [StanzaForm.text, StanzaForm.tail, List.length_append, hval]
    omega
  | scrypt salt digits body =>
    simp only [StanzaForm.text, StanzaForm.tail, List.length_append, hval]
    omega
  | other type args lines last => exact absurd rfl h

/-- A header with such a stanza is longer than the line that the probe looks
for. -/
theorem length_macText_known {forms : List StanzaForm} {form : StanzaForm} (hform : form ∈ forms)
    (hne : form.stanza ≠ .unknown) : armorfirst.length < (macText forms).length := by
  have hmem : form.text ∈ forms.map StanzaForm.text := List.mem_map_of_mem hform
  have htext := (List.sublist_flatten_of_mem hmem).length_le
  have hlong := length_known hne
  have hfirst : armorfirst.length = 35 := by decide
  rw [macText, List.length_append, List.length_append]
  omega

/-- A header that gives a file key has one. -/
theorem length_macText {C : Crypto} {acc : Access} {forms : List StanzaForm} {filekey : Bytes 16}
    (h : acc.Yields C (forms.map StanzaForm.stanza) filekey) :
    armorfirst.length < (macText forms).length := by
  obtain ⟨s, hs, hne⟩ := h.known
  obtain ⟨form, hform, rfl⟩ := List.mem_map.mp hs
  exact length_macText_known hform hne

/-- `validmac` keeps its pointer to a header that gives a file key. -/
theorem Regular.safe {C : Crypto} {acc : Access} {armored : Bool} {d u : List UInt8}
    {forms : List StanzaForm} {filekey : Bytes 16} (h : Regular armored d)
    (hall : ∀ form ∈ forms, form.Accepted) (hd : d = macText forms ++ u)
    (hkey : acc.Yields C (forms.map StanzaForm.stanza) filekey) :
    firstBytes armored < (macText forms).length ∨
      (macText forms).length + MACLEN ≤ firstBytes armored := by
  cases armored with
  | false => exact .inl (length_macText hkey)
  | true => exact (h forms u hall hd).2 rfl

section

variable {δ : Type} [Descr δ] {ch : Chan δ} {f : Feed ch} {C : Crypto} {acc : Access}
  {junk filekey : Bytes 16} {d : List UInt8} {fresh : Prop} {k : Snk} {io : Io δ} {armored : Bool}

/-- The header and its file key. -/
theorem headerKey_spec (hfirst : FirstBuffer f d (firstBytes armored) fresh)
    (hin : InHeader f d (firstBytes armored) fresh k io d) (hreg : Regular armored d) :
    (∀ forms u, (∀ form ∈ forms, form.Accepted) →
        acc.Yields C (forms.map StanzaForm.stanza) filekey → d = macText forms ++ u →
        ∃ st io₁ io₂, Runs rdHandler (openHeader C acc.ids junk) io (.ok st) io₁ ∧
          Runs rdHandler (acc.key C st) io₁ (.ok filekey) io₂ ∧
          InHeader f d (firstBytes armored) fresh k io₂ u) ∧
      ∀ st io₁ io₂, Runs rdHandler (openHeader C acc.ids junk) io (.ok st) io₁ →
        Runs rdHandler (acc.key C st) io₁ (.ok filekey) io₂ →
        ∃ forms u, (∀ form ∈ forms, form.Accepted) ∧
          acc.Yields C (forms.map StanzaForm.stanza) filekey ∧ d = macText forms ++ u ∧
          InHeader f d (firstBytes armored) fresh k io₂ u := by
  have hdel : Delivers (InHeader f d (firstBytes armored) fresh k) rdHandler :=
    delivers_inHeader hfirst
  have hopen := recognizes_openHeader hdel (fun _ => rfl) C acc.ids junk
  constructor
  · intro forms u hall hkey hd
    have hlen := (hreg forms u hall hd).1
    obtain ⟨st, hmatch, hn, hgives⟩ := (Access.yields_iff acc).mpr hkey
    have hin' : InHeader f d (firstBytes armored) fresh k io (macText forms ++ u) := hd.subst hin
    obtain ⟨io₁, hr₁, hin₁⟩ := hopen.complete hin' ⟨forms, hall, hlen, hmatch, hn, rfl⟩
    obtain ⟨io₂, hr₂, hin₂⟩ := (@recognizes_key _ _ _ C acc st).complete
      (show InHeader f d (firstBytes armored) fresh k io₁ ([] ++ u) from hin₁) ⟨rfl, hgives⟩
    exact ⟨st, io₁, io₂, hr₁, hr₂, hin₂⟩
  · intro st io₁ io₂ hr₁ hr₂
    obtain ⟨t, u, hd, ⟨forms, hall, -, hmatch, hn, ht⟩, hin₁⟩ := hopen.sound hin hr₁
    obtain ⟨t', u', hu, ⟨ht', hgives⟩, hin₂⟩ := (@recognizes_key _ _ _ C acc st).sound hin₁ hr₂
    rw [ht', List.nil_append] at hu
    rw [ht] at hd
    rw [← hu] at hin₂
    exact ⟨forms, u, hall, (Access.yields_iff acc).mp ⟨st, hmatch, hn, hgives⟩, hd, hin₂⟩

/-- The parts of a run that succeeds. -/
theorem runs_decipher {io' : Io δ} :
    Runs ageHandler (decipher C acc junk) io (.ok ()) io' ↔
      ∃ st io₁ filekey io₂ mac data io₃,
        Runs rdHandler (openHeader C acc.ids junk) io (.ok st) io₁ ∧
        Runs rdHandler (acc.key C st) io₁ (.ok filekey) io₂ ∧
        Runs ageHandler macArgs io₂ (.ok (mac, data)) io₃ ∧ mac = C.mac data filekey ∧
        Runs rwHandler (decipherBody C filekey) io₃ (.ok ()) io' := by
  unfold decipher decipherPayload
  constructor
  · intro hr
    rcases runs_bind.mp hr with ⟨e, -, he⟩ | ⟨st, io₁, hr₁, hr⟩
    · cases he
    rcases runs_bind.mp hr with ⟨e, -, he⟩ | ⟨filekey, io₂, hr₂, hr⟩
    · cases he
    rcases runs_bind.mp hr with ⟨e, -, he⟩ | ⟨_, io₃, hr₃, hr⟩
    · cases he
    obtain ⟨mac, data, hargs, hmac⟩ := runs_validatemac.mp (runs_age_wrapped.mp hr₃)
    exact ⟨st, io₁, filekey, io₂, mac, data, io₃, runs_age_rd.mp hr₁, runs_age_rd.mp hr₂,
      hargs, hmac, runs_rw.mp hr⟩
  · intro ⟨st, io₁, filekey, io₂, mac, data, io₃, hr₁, hr₂, hargs, hmac, hr⟩
    have hr₃ : Runs ageHandler (validatemac C filekey) io₂ (.ok ()) io₃ :=
      runs_validatemac.mpr ⟨mac, data, hargs, hmac⟩
    refine (Runs.bind_ok (runs_age_rd.mpr hr₁)).mpr ?_
    refine (Runs.bind_ok (runs_age_rd.mpr hr₂)).mpr ?_
    exact (Runs.bind_ok (runs_age_wrapped.mpr hr₃)).mpr (runs_rw.mpr hr)

/-- Decryption behind a given start. -/
theorem decipher_spec {pre : List UInt8} (hroom : ∀ n, ch.room n)
    (hfirst : FirstBuffer f d (firstBytes armored) fresh)
    (hin : InHeader f d (firstBytes armored) fresh k io d) (hreg : Regular armored d)
    (hk : k.Has pre []) :
    (∀ p, Plaintext C acc d p → ∃ io', Runs ageHandler (decipher C acc junk) io (.ok ()) io' ∧
        ch.accepted io'.dev = pre ++ Snk.text k.isarmor p) ∧
      ∀ io', Runs ageHandler (decipher C acc junk) io (.ok ()) io' →
        ∃ p, Plaintext C acc d p ∧ ch.accepted io'.dev = pre ++ Snk.text k.isarmor p := by
  -- the header has been read, and the record shows it
  have hrecord : ∀ {forms : List StanzaForm} {filekey : Bytes 16} {u : List UInt8} {io₂ : Io δ},
      (∀ form ∈ forms, form.Accepted) → acc.Yields C (forms.map StanzaForm.stanza) filekey →
      d = macText forms ++ u → InHeader f d (firstBytes armored) fresh k io₂ u →
      (∀ mac u', u = macLine mac ++ u' →
        ∃ io₃, Runs ageHandler macArgs io₂ (.ok (mac, macText forms)) io₃ ∧ Supply f k io₃ u') ∧
      ∀ mac data io₃, Runs ageHandler macArgs io₂ (.ok (mac, data)) io₃ →
        ∃ u', u = macLine mac ++ u' ∧ data = macText forms ∧ Supply f k io₃ u' := by
    intro forms filekey u io₂ hall hkey hd hin₂
    obtain ⟨s, hread, hpast, hrest, hs, hsnk⟩ := hin₂.reads hd (macText_ne_nil forms)
    have hsafe := hreg.safe hall hd hkey
    have hne := macText_ne_nil forms
    rw [← hpast] at hsafe hne ⊢
    rw [← hrest]
    exact macArgs_spec hread hfirst hne hsafe hs hsnk
  constructor
  · intro p ⟨forms, filekey, text, hall, hkey, hd, hp⟩
    rw [headerText_eq, List.append_assoc] at hd
    obtain ⟨st, io₁, io₂, hr₁, hr₂, hin₂⟩ :=
      (@headerKey_spec _ _ _ _ C acc junk filekey _ _ _ _ _ hfirst hin hreg).1 forms _ hall hkey hd
    obtain ⟨io₃, hmac, hsupply⟩ := (hrecord hall hkey hd hin₂).1 _ text rfl
    obtain ⟨io', hr, hout⟩ := (decipherBody_spec hroom hsupply hk).1 p hp
    exact ⟨io', runs_decipher.mpr ⟨st, io₁, filekey, io₂, _, _, io₃, hr₁, hr₂, hmac, rfl, hr⟩, hout⟩
  · intro io' hr
    obtain ⟨st, io₁, filekey, io₂, mac, data, io₃, hr₁, hr₂, hargs, hmac, hr⟩ := runs_decipher.mp hr
    obtain ⟨forms, u, hall, hkey, hd, hin₂⟩ :=
      (@headerKey_spec _ _ _ _ C acc junk filekey _ _ _ _ _ hfirst hin hreg).2 st io₁ io₂ hr₁ hr₂
    obtain ⟨text, hu, hdata, hsupply⟩ := (hrecord hall hkey hd hin₂).2 mac data io₃ hargs
    obtain ⟨p, hp, hout⟩ := (decipherBody_spec hroom hsupply hk).2 io' hr
    refine ⟨p, ⟨forms, filekey, text, hall, hkey, ?_, hp⟩, hout⟩
    rw [hd, hu, hmac, hdata, headerText_eq, List.append_assoc]

end

end Agecrypt
