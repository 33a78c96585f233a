import Agecrypt.Agec.HeaderWriter
import Agecrypt.Package.Binding
import Agecrypt.Package.Passphrase

/-!
# The work factor

`check_log_n` lets through the whole numbers from 2 to 22, and what it lets
through suits every layer below: `check_cost`, the stanza, the parser, and
the limit of the decryption.  Whatever else it is given it answers with
`age_error_encrypt`, but for one kind of number: `as.integer` makes `NA` of
a double outside the range of an integer, the comparison with it is `NA`,
and the `if` is an error of R itself.
-/

namespace Agecrypt

open ProgE (Runs runs_throw runs_pure runs_op_bind runs_bind)

/-! ## What `check_log_n` lets through -/

/-- The vector is the number `n`. -/
def RVector.Equals (n : Int) : RVector → Prop
  | .integer els => els = [some n]
  | .double els => ∃ x, els = [.finite x] ∧ x.val = n
  | .other _ _ => False

/-- A double that is not in the range of an integer. -/
def RDouble.Huge : RDouble → Prop
  | .posInf => True
  | .negInf => True
  | .finite x => x.val ≥ 2 ^ 31 ∨ x.val ≤ -2 ^ 31
  | _ => False

/-- One number outside the range of an integer. -/
def RVector.OutOfRange (v : RVector) : Prop := ∃ x : RDouble, v = .double [x] ∧ x.Huge

/-- The error of an `if` on `NA`. -/
def econdition : RCondition := .simple "missing value where TRUE/FALSE needed"

theorem ror_true (a : Option Bool) : ror a (some true) = some true := by
  rcases a with _ | _ | _ <;> rfl

theorem ror_some (a b : Bool) : ror (some a) (some b) = some (a || b) := by
  cases a <;> cases b <;> rfl

/-- An operand that is `TRUE` decides the first `if`. -/
theorem checkLogN_rejects {v : RVector}
    (h : v.length ≠ 1 ∨ v.isNa = true ∨ v.isNumeric = false ∨ v.neAsInteger = some true) :
    checkLogN v = .error (.age "encrypt" elogn) := by
  have hcond : ror (ror (ror (some (v.length ≠ 1)) (some v.isNa)) (some !v.isNumeric))
      v.neAsInteger = some true := by
    rcases h with h | h | h | h
    · simp [h, ror]
    · rw [h, ror_true]
      rfl
    · rw [h, Bool.not_false, ror_true]
      rfl
    · rw [h, ror_true]
  unfold checkLogN
  rw [hcond]
  rfl

/-- A single whole number is checked against the range. -/
theorem checkLogN_whole {v : RVector} {n : Int} (hlen : v.length = 1) (hna : v.isNa = false)
    (hnum : v.isNumeric = true) (hne : v.neAsInteger = some false) (hint : v.asInteger = some n) :
    checkLogN v = if n < 2 ∨ n > 22 then .error (.age "encrypt" erange) else .ok (some n) := by
  unfold checkLogN
  rw [hna, hnum, hne, hint, hlen]
  show (rif (ror (some (decide (n < 2))) (some (decide (n > 22))))).bind _ = _
  rw [ror_some, ← Bool.decide_or]
  by_cases hrange : n < 2 ∨ n > 22
  · rw [decide_eq_true hrange, if_pos hrange]
    rfl
  · rw [decide_eq_false hrange, if_neg hrange]
    rfl

theorem checkLogN_huge {x : RDouble} (h : x.Huge) :
    checkLogN (.double [x]) = .error econdition := by
  have hint : x.asInteger = none := by
    cases x with
    | finite x => exact if_pos h
    | _ => rfl
  have hna : x.isNa = false := by
    cases x with
    | na => exact h.elim
    | nan => exact h.elim
    | _ => rfl
  unfold checkLogN
  simp [RVector.length, RVector.isNa, RVector.isNumeric, RVector.neAsInteger, hint, hna,
    RDouble.ne, ror, rif, econdition, bind, Except.bind]

/-- The number that a vector is, when it is whole. -/
theorem checkLogN_cases {v : RVector} (hv : ¬ v.OutOfRange) :
    (∃ msg, checkLogN v = .error (.age "encrypt" msg)) ∨
      ∃ n, v.Equals n ∧ 2 ≤ n ∧ n ≤ 22 ∧ checkLogN v = .ok (some n) := by
  have hwhole : ∀ n, v.Equals n → v.length = 1 → v.isNa = false → v.isNumeric = true →
      v.neAsInteger = some false → v.asInteger = some n →
      (∃ msg, checkLogN v = .error (.age "encrypt" msg)) ∨
        ∃ n, v.Equals n ∧ 2 ≤ n ∧ n ≤ 22 ∧ checkLogN v = .ok (some n) := by
    intro n heq hlen hna hnum hne hint
    rw [checkLogN_whole hlen hna hnum hne hint]
    split
    · exact .inl ⟨_, rfl⟩
    · exact .inr ⟨n, heq, by omega, by omega, rfl⟩
  by_cases hlen : v.length = 1
  swap
  · exact .inl ⟨_, checkLogN_rejects (.inl hlen)⟩
  cases v with
  | other length isNa => exact .inl ⟨_, checkLogN_rejects (.inr (.inr (.inl rfl)))⟩
  | integer els =>
    obtain ⟨el, rfl⟩ := List.length_eq_one_iff.mp hlen
    cases el with
    | none => exact .inl ⟨_, checkLogN_rejects (.inr (.inl rfl))⟩
    | some n => exact hwhole n rfl rfl rfl rfl (by simp [RVector.neAsInteger]) rfl
  | double els =>
    obtain ⟨x, rfl⟩ := List.length_eq_one_iff.mp hlen
    have hhuge : ¬ x.Huge := fun h => hv ⟨x, rfl, h⟩
    cases x with
    | na => exact .inl ⟨_, checkLogN_rejects (.inr (.inl rfl))⟩
    | nan => exact .inl ⟨_, checkLogN_rejects (.inr (.inl rfl))⟩
    | posInf => exact absurd trivial hhuge
    | negInf => exact absurd trivial hhuge
    | finite x =>
      have hint : (RDouble.finite x).asInteger = some (RDouble.truncate x.val) := if_neg hhuge
      by_cases heq : x.val = RDouble.truncate x.val
      · refine hwhole (RDouble.truncate x.val) ⟨x, rfl, heq⟩ rfl rfl rfl ?_ hint
        simp [RVector.neAsInteger, hint, RDouble.ne, ← heq]
      · refine .inl ⟨_, checkLogN_rejects (.inr (.inr (.inr ?_)))⟩
        simp [RVector.neAsInteger, hint, RDouble.ne, heq]

/-! ## The layers below -/

theorem hdrappend_absorbed {σ : Type} {h : Handler WrOp WrRet σ} {hd hd' : Header}
    {text : List UInt8} {s s' : σ} (hr : Runs h (hdrappend hd text) s (.ok hd') s') :
    hd'.absorbed = hd.absorbed ++ text := by
  unfold hdrappend at hr
  split at hr
  · cases (runs_throw.mp hr).1
  · obtain ⟨ok, t, -, hr⟩ := runs_op_bind.mp hr
    cases ok with
    | false =>
      obtain ⟨e, t', -, hr⟩ := runs_op_bind.mp hr
      cases (runs_throw.mp hr).1
    | true =>
      obtain ⟨heq, -⟩ := runs_pure.mp hr
      rw [Except.ok.inj heq]

/-- The stanza carries the cost that it is made with. -/
theorem scryptstanzacost_absorbed {σ : Type} {h : Handler WrOp WrRet σ} (C : Crypto)
    {hd hd' : Header} {filekey : Bytes 16} {pass : List UInt8} {cost : Nat} {s s' : σ}
    (hr : Runs h (scryptstanzacost C hd filekey pass cost) s (.ok hd') s') :
    ∃ salt body, hd'.absorbed =
      hd.absorbed ++ (StanzaForm.scrypt salt (ascii (toString cost)) body).text := by
  unfold scryptstanzacost at hr
  obtain ⟨salt, t, -, hr⟩ := runs_op_bind.mp hr
  cases salt with
  | none => cases (runs_throw.mp hr).1
  | some salt =>
    dsimp only at hr
    unfold scryptstanza at hr
    cases hkey : wrapkey C pass salt cost with
    | error e =>
      rw [hkey] at hr
      obtain ⟨e', t', -, hr⟩ := runs_op_bind.mp hr
      cases (runs_throw.mp hr).1
    | ok key =>
      rw [hkey] at hr
      rcases runs_bind.mp hr with ⟨e, -, he⟩ | ⟨hd₁, t₁, hr₁, hr₂⟩
      · cases he
      refine ⟨salt, C.keyenc key filekey, ?_⟩
      rw [hdrappend_absorbed hr₂, hdrappend_absorbed hr₁, StanzaForm.text,
        show ascii "-> scrypt " = stanzaBegin ++ argscrypt ++ [SP] by decide]
      simp [StanzaForm.tail]

/-- Every layer behind the `.Call` takes `logn` as the work factor `n`. -/
structure CostAgreed (C : Crypto) (R : RApi) (logn : Sexp) (n : Nat) : Prop where
  accepted : checkCost R logn = some n
  written : ∀ {σ : Type} (h : Handler WrOp WrRet σ) (hd hd' : Header) (filekey : Bytes 16)
    (pass : List UInt8) (s s' : σ), Runs h (scryptstanzacost C hd filekey pass n) s (.ok hd') s' →
    ∃ salt body, hd'.absorbed =
      hd.absorbed ++ (StanzaForm.scrypt salt (ascii (toString n)) body).text
  parsed : ∀ {σ : Type} (At : σ → List UInt8 → Prop) (h : Handler RdOp RdRet σ), Delivers At h →
    ∀ s u, At s (ascii (toString n) ++ [NL] ++ u) →
    ∃ s', Runs h scryptcost s (.ok (n : Int)) s' ∧ At s' u
  admitted : ¬ (n : Int) > SCRYPTMAXCOST

theorem costAgreed {C : Crypto} {R : RApi} (hR : ∀ n, R.asInteger (.int [some n]) = some n)
    {n : Nat} (hn : 2 ≤ n ∧ n ≤ 22) : CostAgreed C R (.int [some (n : Int)]) n where
  accepted := by
    have hmin : SCRYPT_MINCOST = 2 := rfl
    have hmax : SCRYPT_MAXCOST = 22 := rfl
    rw [checkCost, hR]
    dsimp only
    rw [if_neg (by omega), Int.toNat_natCast]
  written := fun _ _ _ _ _ _ _ hr => scryptstanzacost_absorbed C hr
  parsed := by
    intro σ At h hd s u hs
    obtain ⟨hwork, hatoi⟩ := workFactor_cost hn
    exact (recognizes_scryptcost hd).complete hs ⟨ascii (toString n), hwork, hatoi.symm, rfl⟩
  admitted := by
    have hmax : SCRYPTMAXCOST = 22 := rfl
    omega

/-! ## The entry points -/

/-- Either `age_error_encrypt` in front of the call, or the call with a work
factor that is `log_n` and that every layer agrees on. -/
def Judged (C : Crypto) (R : RApi) (v : RVector) : RCode Sexp → Prop
  | .error c => ∃ msg, c = .age "encrypt" msg
  | .ok logn => ∃ n : Nat, v.Equals n ∧ logn = .int [some (n : Int)] ∧ CostAgreed C R logn n

/-- What is to hold of a `log_n`, whatever the other arguments are.  Those
of the function for files are such that the call is reached with the work
factor 18; what the other checks signal is not about `log_n`. -/
structure LogNAgrees (C : Crypto) (R : RApi) (v : RVector) : Prop where
  raw : ∀ S x passphrase armor, Judged C R v
    ((ageEncryptRawPassphrase S x passphrase armor v).map PassphraseCall.logn)
  file : ∀ S input output passphrase armor overwrite call,
    ageEncryptFilePassphrase S input output passphrase armor overwrite (.integer [some 18]) =
      .ok call →
    Judged C R v ((ageEncryptFilePassphrase S input output passphrase armor overwrite v).map
      PathPassphraseCall.logn)

/-- Every error of `resolve_passphrase` has the class of the mode. -/
theorem resolvePassphrase_error {S : RSession} {x : Sexp} {c : RCondition}
    (h : resolvePassphrase S x true = .error c) : ∃ msg, c = .age "encrypt" msg := by
  unfold resolvePassphrase at h
  simp only [if_true, bind, Except.bind, pure, Except.pure, ageAbort] at h
  -- every branch but one ends with a condition of this class
  repeat' split at h
  all_goals first
    | exact ⟨_, (Except.error.inj h).symm⟩
    | cases h

theorem checkFlag_error {x : Sexp} {name status : String} {c : RCondition}
    (h : checkFlag x name status = .error c) : ∃ msg, c = .age status msg := by
  unfold checkFlag at h
  split at h
  · cases h
  · exact ⟨_, (Except.error.inj h).symm⟩

/-- A work factor that was let through is agreed on. -/
theorem judged_ok {C : Crypto} {R : RApi} (hR : ∀ n, R.asInteger (.int [some n]) = some n)
    {v : RVector} {n : Int} (heq : v.Equals n) (hlow : 2 ≤ n) (hhigh : n ≤ 22) :
    Judged C R v (.ok (.int [some n])) := by
  obtain ⟨k, rfl⟩ := Int.eq_ofNat_of_zero_le (Int.le_trans (by decide) hlow)
  exact ⟨k, heq, rfl, costAgreed hR (by omega)⟩

theorem ageEncryptRawPassphrase_judged {C : Crypto} {R : RApi}
    (hR : ∀ n, R.asInteger (.int [some n]) = some n) {v : RVector} (hv : ¬ v.OutOfRange)
    (S : RSession) (x passphrase armor : Sexp) : Judged C R v
      ((ageEncryptRawPassphrase S x passphrase armor v).map PassphraseCall.logn) := by
  cases x with
  | raw bs =>
    rw [ageEncryptRawPassphrase]
    cases hflag : checkFlag armor "armor" "encrypt" with
    | error c => exact checkFlag_error hflag
    | ok a =>
      rcases checkLogN_cases hv with ⟨msg, hlog⟩ | ⟨n, heq, hlow, hhigh, hlog⟩
      · rw [hlog]
        exact ⟨msg, rfl⟩
      · rw [hlog]
        cases hpass : resolvePassphrase S passphrase true with
        | error c => exact resolvePassphrase_error hpass
        | ok p => exact judged_ok hR heq hlow hhigh
  | _ => exact ⟨_, rfl⟩

theorem ageEncryptFilePassphrase_judged {C : Crypto} {R : RApi}
    (hR : ∀ n, R.asInteger (.int [some n]) = some n) {v : RVector} (hv : ¬ v.OutOfRange)
    {S : RSession} {input output passphrase armor overwrite : Sexp} {call : PathPassphraseCall}
    (hcall : ageEncryptFilePassphrase S input output passphrase armor overwrite
      (.integer [some 18]) = .ok call) : Judged C R v
      ((ageEncryptFilePassphrase S input output passphrase armor overwrite v).map
        PathPassphraseCall.logn) := by
  have h18 : checkLogN (.integer [some 18]) = .ok (some 18) := rfl
  unfold ageEncryptFilePassphrase at hcall ⊢
  rw [h18] at hcall
  -- what stands in front of the check has passed
  cases hin : checkPath input "input" with
  | error c => rw [hin] at hcall; cases hcall
  | ok inp =>
  rw [hin] at hcall
  simp only [bind, Except.bind] at hcall ⊢
  split at hcall
  · cases hcall
  rename_i hexists
  rw [if_neg hexists]
  generalize checkPath _ "output" = outp at hcall ⊢
  cases outp with
  | error c => cases hcall
  | ok outp =>
  cases hflag : checkFlag armor "armor" "encrypt" with
  | error c => rw [hflag] at hcall; cases hcall
  | ok a =>
  cases hover : checkFlag overwrite "overwrite" "io" with
  | error c => rw [hflag, hover] at hcall; cases hcall
  | ok o =>
  rw [hflag, hover] at hcall
  dsimp only at hcall ⊢
  rcases checkLogN_cases hv with ⟨msg, hlog⟩ | ⟨n, heq, hlow, hhigh, hlog⟩
  · rw [hlog]
    exact ⟨msg, rfl⟩
  rw [hlog]
  dsimp only
  -- and so does what stands behind it
  cases hdist : guardDistinctPaths S inp outp with
  | error c => rw [hdist] at hcall; cases hcall
  | ok _ =>
  cases hout : guardOutput S outp o with
  | error c => rw [hdist, hout] at hcall; cases hcall
  | ok _ =>
  cases hpass : resolvePassphrase S passphrase true with
  | error c => rw [hdist, hout, hpass] at hcall; cases hcall
  | ok p => exact judged_ok hR heq hlow hhigh

/-- The layers agree on `log_n`, unless it is one number outside the range
of an integer. -/
theorem logN_agrees_iff (C : Crypto) {R : RApi} (hR : ∀ n, R.asInteger (.int [some n]) = some n)
    (v : RVector) : LogNAgrees C R v ↔ ¬ v.OutOfRange := by
  constructor
  · rintro hagrees ⟨x, rfl, hx⟩
    have hraw := hagrees.raw ⟨true, true, fun _ => .null, id, fun _ => true, some, id, id⟩
      (.raw []) (.str [some [97]]) (.lgl [some false])
    rw [ageEncryptRawPassphrase, checkLogN_huge hx] at hraw
    obtain ⟨msg, hmsg⟩ := hraw
    cases hmsg
  · intro hv
    exact ⟨ageEncryptRawPassphrase_judged hR hv,
      fun _ _ _ _ _ _ _ => ageEncryptFilePassphrase_judged hR hv⟩

/-- The conversions of vectors of integers and of logical values. -/
def RApi.sample : RApi where
  asLogical
    | .lgl (b :: _) => b
    | _ => none
  asInteger
    | .int (n :: _) => n
    | _ => none

/-- A whole number as a double. -/
def FiniteDouble.ofInt (n : Int) (hn : |n| < 2 ^ 53) : FiniteDouble where
  val := n
  is_double := ⟨n, 0, hn, by decide, by decide, by rw [zpow_zero, mul_one]⟩

theorem logN_agrees_iff_eight :
    LogNAgrees Crypto.sample RApi.sample (.double [.finite (.ofInt 8 (by decide))]) := by
  refine (logN_agrees_iff Crypto.sample (fun _ => rfl) _).mpr ?_
  rintro ⟨x, hx, hhuge⟩
  obtain rfl := (List.cons.inj (RVector.double.inj hx)).1
  revert hhuge
  show ((8 : Int) : ℚ) ≥ 2 ^ 31 ∨ ((8 : Int) : ℚ) ≤ -2 ^ 31 → False
  norm_num

/-- Three thousand millions end in an error of R itself. -/
theorem logN_unjudged :
    ¬ ∀ v : RVector, v.isNumeric = true → LogNAgrees Crypto.sample RApi.sample v := by
  intro hall
  have hhuge : (RDouble.finite (.ofInt 3000000000 (by decide))).Huge := by
    left
    show ((3000000000 : Int) : ℚ) ≥ 2 ^ 31
    norm_num
  have hraw := (hall (.double [.finite (.ofInt 3000000000 (by decide))]) rfl).raw
    ⟨true, true, fun _ => .null, id, fun _ => true, some, id, id⟩ (.raw []) (.str [some [97]])
    (.lgl [some false])
  rw [ageEncryptRawPassphrase, checkLogN_huge hhuge] at hraw
  obtain ⟨msg, hmsg⟩ := hraw
  cases hmsg

end Agecrypt
