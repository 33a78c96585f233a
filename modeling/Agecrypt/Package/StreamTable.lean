import Agecrypt.Package.Growth
import Agecrypt.Package.Streams
import Mathlib.Data.Set.Card

/-!
# The stream table as independent streams

A `Stream` is what a descriptor stands for as long as it is open: a source
with its bytes, or a sink with what was written to it, and what has been
read so far.  `streamAfter d h` is the stream behind `d` after the calls
`h`, each with its answer; it goes by the calls on `d` alone.

`memtab_refines_streams` says that the table gives the answers that these
streams have to give, after any sequence of calls: with slots and
descriptors used again, on descriptors that are not open, and with any
failures of `realloc`.  Every call has an outcome: what is written to a sink
fits into its block.
-/

namespace Agecrypt

/-! ## Streams -/

inductive Stream where
  | source (data reads : List UInt8)
  | sink (writes reads : List UInt8)
deriving DecidableEq, Repr

namespace Stream

def content : Stream → List UInt8
  | source data _ => data
  | sink writes _ => writes

/-- What has been read so far. -/
def reads : Stream → List UInt8
  | source _ reads => reads
  | sink _ reads => reads

def isSink : Stream → Bool
  | source .. => false
  | sink .. => true

/-- The next bytes, `n` at most. -/
def next (n : Nat) (st : Stream) : List UInt8 := (st.content.drop st.reads.length).take n

def read (bs : List UInt8) : Stream → Stream
  | source data reads => source data (reads ++ bs)
  | sink writes reads => sink writes (reads ++ bs)

def written (bs : List UInt8) : Stream → Stream
  | source data reads => source data reads
  | sink writes reads => sink (writes ++ bs) reads

end Stream

/-! ## Calls and their answers -/

/-- The bytes of a caller, as many as `usize` counts. -/
abbrev Buffer := { bs : List UInt8 // bs.length < 2 ^ 64 }

inductive StreamOp where
  | memopenRead (data : Buffer)
  | memopenWrite
  | ageread (fd : Int) (nbytes : Nat)
  | agewrite (fd : Int) (bs : Buffer)
  | memdata (vfd : Int)
  | memclose (vfd : Int)
deriving DecidableEq, Repr

inductive Answer where
  | fd (d : Int)
  | bytes (r : Option (List UInt8))
  | count (r : Option Nat)
  | contents (bs : List UInt8)
  | closed
deriving DecidableEq, Repr

/-- What the calls do. -/
def StreamOp.exec : StreamOp → Sys → Option (Answer × Sys)
  | .memopenRead data, s =>
    let (d, memtab) := Agecrypt.memopenRead data.val s.memtab
    some (.fd d, { s with memtab })
  | .memopenWrite, s =>
    let (d, memtab) := Agecrypt.memopenWrite s.memtab
    some (.fd d, { s with memtab })
  | .ageread fd nbytes, s =>
    let (r, s) := s.ageread fd nbytes
    some (.bytes r, s)
  | .agewrite fd bs, s => (s.agewrite fd bs.val).map fun x => (.count x.1, x.2)
  | .memdata vfd, s => some (.contents (Agecrypt.memdata vfd s.memtab), s)
  | .memclose vfd, s => some (.closed, { s with memtab := Agecrypt.memclose vfd s.memtab })

abbrev StreamEvent := StreamOp × Answer

/-- Sequences of calls with their answers, and the table behind them.  The
rest of the state is whatever it is at each call. -/
inductive History : List StreamEvent → Memtab → Prop
  | start : History [] Memtab.empty
  | call {h : List StreamEvent} {s s' : Sys} {ans : Answer} (op : StreamOp) :
      History h s.memtab → op.exec s = some (ans, s') → History (h ++ [(op, ans)]) s'.memtab

/-! ## The stream behind a descriptor -/

/-- What an event makes of the stream behind `d`. -/
def follow (d : Int) (st : Option Stream) : StreamEvent → Option Stream
  | (.memopenRead data, .fd d') => if d' = d ∧ d ≠ -1 then some (.source data.val []) else st
  | (.memopenWrite, .fd d') => if d' = d ∧ d ≠ -1 then some (.sink [] []) else st
  | (.ageread d' _, .bytes (some bs)) => if d' = d then st.map (Stream.read bs) else st
  | (.agewrite d' bs, .count (some _)) => if d' = d then st.map (Stream.written bs.val) else st
  | (.memclose d', _) => if d' = d then none else st
  | _ => st

/-- The event is a call on `d`, or hands it out. -/
def concerns (d : Int) : StreamEvent → Bool
  | (.memopenRead _, .fd d') => d' = d
  | (.memopenWrite, .fd d') => d' = d
  | (.ageread d' _, _) => d' = d
  | (.agewrite d' _, _) => d' = d
  | (.memdata d', _) => d' = d
  | (.memclose d', _) => d' = d
  | _ => false

def streamAfter (d : Int) (h : List StreamEvent) : Option Stream := h.foldl (follow d) none

theorem follow_of_not_concerns {d : Int} {e : StreamEvent} (he : concerns d e = false)
    (st : Option Stream) : follow d st e = st := by
  fun_cases follow d st e <;> simp_all [concerns]

/-- Calls on other descriptors make no difference. -/
theorem streamAfter_filter (d : Int) (h : List StreamEvent) :
    streamAfter d (h.filter (concerns d)) = streamAfter d h := by
  rw [streamAfter, streamAfter, List.foldl_filter]
  refine congrArg (fun f => h.foldl f none) (funext fun st => funext fun e => ?_)
  split
  · rfl
  · rename_i he
    exact (follow_of_not_concerns (by simpa using he) st).symm

/-! ## Slots -/

/-- The slot of a descriptor that is open. -/
def slot (t : Memtab) (d : Int) : Option MemFile := (vfdToIndex t d).map t

theorem vfdOf_inj {i j : Fin MEMFD_MAX} (h : vfdOf i = vfdOf j) : i = j := by
  rw [vfdOf, vfdOf] at h
  exact Fin.ext (by omega)

theorem vfdToIndex_eq_some {t : Memtab} {d : Int} {i : Fin MEMFD_MAX} :
    vfdToIndex t d = some i ↔ d = vfdOf i ∧ inUse t i = true := by
  constructor
  · intro h
    rw [vfdToIndex] at h
    split at h
    · cases h
    · dsimp only at h
      split at h
      · rename_i hd hlt
        split at h
        · cases h
        · rename_i hused
          obtain rfl := Option.some.inj h
          rw [not_or, not_not] at hused
          refine ⟨?_, hused.2⟩
          show d = -2 - ((-2 - d).toNat : Int)
          omega
      · cases h
  · rintro ⟨rfl, hused⟩
    exact vfdToIndex_vfdOf hused

theorem slot_vfdOf (t : Memtab) (i : Fin MEMFD_MAX) :
    slot t (vfdOf i) = if inUse t i then some (t i) else none := by
  cases h : inUse t i with
  | true =>
    rw [slot, vfdToIndex_vfdOf h]
    rfl
  | false =>
    have hnone : vfdToIndex t (vfdOf i) = none := by
      rw [Option.eq_none_iff_forall_ne_some]
      intro j hj
      obtain ⟨hij, hused⟩ := vfdToIndex_eq_some.mp hj
      rw [← vfdOf_inj hij, h] at hused
      cases hused
    rw [slot, hnone]
    rfl

/-- A descriptor that is not that of a slot. -/
theorem slot_eq_none {t : Memtab} {d : Int} (h : ∀ i, d ≠ vfdOf i) : slot t d = none := by
  rw [slot, Option.map_eq_none_iff, Option.eq_none_iff_forall_ne_some]
  intro i hi
  exact h i (vfdToIndex_eq_some.mp hi).1

/-- Changing a slot changes what its descriptor stands for, and nothing
else. -/
theorem slot_update (t : Memtab) (i : Fin MEMFD_MAX) (f : MemFile) (d : Int) :
    slot (Function.update t i f) d =
      if vfdOf i = d then (if f.used then some f else none) else slot t d := by
  by_cases hd : ∃ j, d = vfdOf j
  · obtain ⟨j, rfl⟩ := hd
    rw [slot_vfdOf, slot_vfdOf, inUse_update]
    by_cases hij : i = j
    · subst hij
      rw [if_pos rfl, Function.update_self, Function.update_self]
    · rw [if_neg (fun h => hij (vfdOf_inj h)), Function.update_of_ne (Ne.symm hij),
        Function.update_of_ne (Ne.symm hij)]
  · have hne : ∀ j, d ≠ vfdOf j := fun j hj => hd ⟨j, hj⟩
    rw [slot_eq_none hne, slot_eq_none hne, if_neg (Ne.symm (hne i))]

/-! ## The table stands for the streams -/

/-- The slot holds the stream. -/
structure Shows (f : MemFile) (st : Stream) : Prop where
  used : f.used = true
  write : f.write = st.isSink
  data : f.data = st.content
  pos : f.pos = st.reads.length
  behind : st.reads <+: st.content
  cap : st.isSink = true → f.cap = capacity st.content.length
  size : st.isSink = true → st.content.length ≤ 2 ^ 63

def Represents (t : Memtab) (a : Int → Option Stream) : Prop :=
  ∀ d, Option.Rel Shows (slot t d) (a d)

theorem represents_empty : Represents Memtab.empty fun _ => none := by
  intro d
  have hnone : slot Memtab.empty d = none := by
    rw [slot, Option.map_eq_none_iff, Option.eq_none_iff_forall_ne_some]
    intro i hi
    cases (vfdToIndex_eq_some.mp hi).2
  rw [hnone]
  exact .none

section

variable {t : Memtab} {a : Int → Option Stream}

theorem Represents.update (h : Represents t a) {i : Fin MEMFD_MAX} {f : MemFile}
    {st : Option Stream} (hf : Option.Rel Shows (if f.used then some f else none) st) :
    Represents (Function.update t i f) fun d => if vfdOf i = d then st else a d := by
  intro d
  rw [slot_update]
  by_cases hd : vfdOf i = d
  · simp only [if_pos hd]
    exact hf
  · simp only [if_neg hd]
    exact h d

theorem Represents.eq_none (h : Represents t a) {d : Int} (hd : slot t d = none) : a d = none := by
  have hrel := h d
  rw [hd] at hrel
  cases hst : a d with
  | none => rfl
  | some st =>
    rw [hst] at hrel
    cases hrel

theorem Represents.shows (h : Represents t a) {d : Int} {i : Fin MEMFD_MAX}
    (hd : vfdToIndex t d = some i) : ∃ st, a d = some st ∧ Shows (t i) st := by
  have hrel := h d
  rw [slot, hd] at hrel
  cases hst : a d with
  | none =>
    rw [hst] at hrel
    cases hrel
  | some st =>
    rw [hst] at hrel
    cases hrel with
    | some hs => exact ⟨st, rfl, hs⟩

/-- The descriptors that are open. -/
def openFds (a : Int → Option Stream) : Set Int := {d | (a d).isSome}

theorem Represents.ncard (h : Represents t a) :
    (openFds a).ncard = {i | inUse t i = true}.ncard := by
  have himage : openFds a = vfdOf '' {i | inUse t i = true} := by
    ext d
    constructor
    · intro hd
      cases hi : vfdToIndex t d with
      | none =>
        rw [openFds, Set.mem_ofPred_eq, h.eq_none (by rw [slot, hi]; rfl)] at hd
        cases hd
      | some i =>
        obtain ⟨rfl, hused⟩ := vfdToIndex_eq_some.mp hi
        exact ⟨i, hused, rfl⟩
    · rintro ⟨i, hused, rfl⟩
      obtain ⟨st, hst, -⟩ := h.shows (vfdToIndex_vfdOf hused)
      rw [openFds, Set.mem_ofPred_eq, hst]
      rfl
  rw [himage]
  exact Set.ncard_image_of_injective _ fun i j => vfdOf_inj

theorem Represents.full (h : Represents t a) (hfull : ∀ i, inUse t i = true) :
    (openFds a).ncard = MEMFD_MAX := by
  have huniv : {i | inUse t i = true} = Set.univ := Set.eq_univ_of_forall hfull
  rw [h.ncard, huniv, Set.ncard_univ, Nat.card_eq_fintype_card, Fintype.card_fin]

theorem Represents.room (h : Represents t a) {i : Fin MEMFD_MAX} (hi : inUse t i = false) :
    (openFds a).ncard < MEMFD_MAX := by
  have hne : {i | inUse t i = true} ⊂ Set.univ := by
    rw [Set.ssubset_univ_iff]
    intro heq
    have hmem : i ∈ {i | inUse t i = true} := heq ▸ Set.mem_univ i
    rw [Set.mem_ofPred_eq, hi] at hmem
    cases hmem
  have hlt := Set.ncard_lt_ncard hne
  rw [Set.ncard_univ, Nat.card_eq_fintype_card, Fintype.card_fin] at hlt
  rw [h.ncard]
  exact hlt

end

/-! ## One call -/

/-- Opening hands out a descriptor that is not in use, and fails exactly when
eight streams are open. -/
def Hands (a : Int → Option Stream) (ans : Answer) : Prop :=
  (ans = .fd (-1) ∧ (openFds a).ncard = MEMFD_MAX) ∨
    ∃ d, d ≤ -2 ∧ ans = .fd d ∧ a d = none ∧ (openFds a).ncard < MEMFD_MAX

/-- There is room for `bs` behind the `writes` of a sink: in its block, or in
a larger one of `2 ^ 63` bytes at most that `realloc` gives. -/
def HasRoom (realloc : Nat → Bool) (writes bs : List UInt8) : Prop :=
  (writes ++ bs).length ≤ 2 ^ 63 ∧
    ((writes ++ bs).length ≤ capacity writes.length ∨
      realloc (capacity (writes ++ bs).length) = true)

/-- The answers that the streams `a` allow, when `realloc` says which sizes
there is memory for. -/
def Fits (realloc : Nat → Bool) (a : Int → Option Stream) : StreamOp → Answer → Prop
  | .memopenRead _, ans => Hands a ans
  | .memopenWrite, ans => Hands a ans
  | .ageread fd nbytes, ans => fd < 0 → ans = .bytes ((a fd).map (Stream.next nbytes))
  | .agewrite fd bs, ans => fd < 0 →
      (ans = .count (some bs.val.length) ∧
        ∃ writes reads, a fd = some (.sink writes reads) ∧ HasRoom realloc writes bs.val) ∨
      (ans = .count none ∧
        ∀ writes reads, a fd = some (.sink writes reads) → ¬ HasRoom realloc writes bs.val)
  | .memdata vfd, ans => ans = .contents ((a vfd).elim [] Stream.content)
  | .memclose _, ans => ans = .closed

section

variable {s : Sys} {a : Int → Option Stream}

/-- What a call answers, and what it leaves. -/
def Refines (realloc : Nat → Bool) (a : Int → Option Stream) (op : StreamOp)
    (x : Option (Answer × Sys)) : Prop :=
  ∃ ans s', x = some (ans, s') ∧ Fits realloc a op ans ∧
    Represents s'.memtab fun d => follow d (a d) (op, ans)

theorem vfdOf_le (i : Fin MEMFD_MAX) : vfdOf i ≤ -2 := by
  rw [vfdOf]
  omega

theorem slot_of_ge {t : Memtab} {d : Int} (hd : -2 < d) : slot t d = none := by
  refine slot_eq_none fun i hi => ?_
  have := vfdOf_le i
  omega

/-- A call that leaves the streams alone. -/
theorem Represents.keep (h : Represents s.memtab a) {op : StreamOp} {ans : Answer} {s' : Sys}
    (ht : s'.memtab = s.memtab) (hfollow : ∀ d, follow d (a d) (op, ans) = a d) :
    Represents s'.memtab fun d => follow d (a d) (op, ans) := by
  rw [ht]
  intro d
  show Option.Rel Shows _ (follow d (a d) (op, ans))
  rw [hfollow]
  exact h d

/-- A slot is taken for a new stream. -/
theorem Represents.opened (h : Represents s.memtab a) {i : Fin MEMFD_MAX}
    (hi : inUse s.memtab i = false) {f : MemFile} {st : Stream} (hf : Shows f st) :
    Hands a (.fd (vfdOf i)) ∧ Represents (Function.update s.memtab i f)
      fun d => if vfdOf i = d ∧ d ≠ -1 then some st else a d := by
  have hnone : a (vfdOf i) = Option.none := h.eq_none (by rw [slot_vfdOf, hi]; rfl)
  refine ⟨.inr ⟨vfdOf i, vfdOf_le i, rfl, hnone, h.room hi⟩, ?_⟩
  have hshows : Option.Rel Shows (if f.used then some f else none) (some st) := by
    rw [hf.used, if_pos rfl]
    exact .some hf
  have hupd := h.update (i := i) hshows
  intro d
  have hd := hupd d
  by_cases heq : vfdOf i = d
  · have hne : d ≠ -1 := by
      rw [← heq]
      exact vfdOf_ne i
    simp only [if_pos heq] at hd
    simp only [if_pos (And.intro heq hne)]
    exact hd
  · simp only [if_neg heq] at hd
    simp only [if_neg (fun hc : vfdOf i = d ∧ d ≠ -1 => heq hc.1)]
    exact hd

theorem memopenRead_refines (h : Represents s.memtab a) (data : Buffer) :
    Refines (s.allocs 0) a (.memopenRead data) ((StreamOp.memopenRead data).exec s) := by
  refine ⟨.fd (memopenRead data.val s.memtab).1,
    { s with memtab := (memopenRead data.val s.memtab).2 }, rfl, ?_⟩
  rcases memalloc_cases s.memtab with ⟨hnone, hfull⟩ | ⟨i, hfree, hsome⟩
  · have hopen : memopenRead data.val s.memtab = (-1, s.memtab) := by rw [memopenRead, hnone]
    rw [hopen]
    refine ⟨.inl ⟨rfl, h.full hfull⟩, h.keep rfl fun d => ?_⟩
    rw [follow, if_neg (by rintro ⟨rfl, hne⟩; exact hne rfl)]
  · have hopen : memopenRead data.val s.memtab =
        (vfdOf i, Function.update s.memtab i ⟨true, false, data.val, 0, 0⟩) := by
      rw [memopenRead, hsome]
      dsimp only
      rw [Function.update_idem, Function.update_self]
    rw [hopen]
    refine h.opened hfree ⟨rfl, rfl, rfl, rfl, List.nil_prefix, fun hsink => ?_, fun hsink => ?_⟩
    · cases hsink
    · cases hsink

theorem memopenWrite_refines (h : Represents s.memtab a) :
    Refines (s.allocs 0) a .memopenWrite (StreamOp.memopenWrite.exec s) := by
  refine ⟨.fd (memopenWrite s.memtab).1, { s with memtab := (memopenWrite s.memtab).2 }, rfl, ?_⟩
  rcases memalloc_cases s.memtab with ⟨hnone, hfull⟩ | ⟨i, hfree, hsome⟩
  · have hopen : memopenWrite s.memtab = (-1, s.memtab) := by rw [memopenWrite, hnone]
    rw [hopen]
    refine ⟨.inl ⟨rfl, h.full hfull⟩, h.keep rfl fun d => ?_⟩
    rw [follow, if_neg (by rintro ⟨rfl, hne⟩; exact hne rfl)]
  · have hopen : memopenWrite s.memtab =
        (vfdOf i, Function.update s.memtab i ⟨true, true, [], 0, 0⟩) := by
      rw [memopenWrite, hsome]
      dsimp only
      rw [Function.update_idem, Function.update_self]
    rw [hopen]
    exact h.opened hfree
      ⟨rfl, rfl, rfl, rfl, List.nil_prefix, fun _ => rfl, fun _ => Nat.zero_le _⟩

theorem memdata_refines (h : Represents s.memtab a) (vfd : Int) :
    Refines (s.allocs 0) a (.memdata vfd) ((StreamOp.memdata vfd).exec s) := by
  refine ⟨.contents (memdata vfd s.memtab), s, rfl, ?_, h.keep rfl fun d => rfl⟩
  show Answer.contents (memdata vfd s.memtab) = _
  rw [memdata]
  cases hi : vfdToIndex s.memtab vfd with
  | none => rw [h.eq_none (by rw [slot, hi]; rfl)]; rfl
  | some i =>
    obtain ⟨st, hst, hs⟩ := h.shows hi
    rw [hst]
    exact congrArg Answer.contents hs.data

theorem memclose_refines (h : Represents s.memtab a) (vfd : Int) :
    Refines (s.allocs 0) a (.memclose vfd) ((StreamOp.memclose vfd).exec s) := by
  refine ⟨.closed, { s with memtab := memclose vfd s.memtab }, rfl, rfl, ?_⟩
  show Represents (memclose vfd s.memtab) _
  rw [memclose]
  cases hi : vfdToIndex s.memtab vfd with
  | none =>
    refine h.keep rfl fun d => ?_
    rw [follow]
    split
    · rename_i hd
      rw [← hd]
      exact (h.eq_none (by rw [slot, hi]; rfl)).symm
    · rfl
  | some i =>
    obtain ⟨rfl, -⟩ := vfdToIndex_eq_some.mp hi
    exact h.update .none

/-- The calls of the file system leave the table alone. -/
theorem memtab_syscall {α : Type} {c : Syscall} {effect : Nat → Sys → Except Errno α × Sys}
    (he : ∀ count s, (effect count s).2.memtab = s.memtab) :
    (Sys.syscall c effect s).2.memtab = s.memtab := by
  have hact : (Sys.act effect (s.calls c 0) (s.arrive c)).2.memtab = s.memtab := by
    cases s.calls c 0 with
    | fail e => rfl
    | ok count => exact he count _
  rw [Sys.syscall]
  rcases hx : Sys.act effect (s.calls c 0) (s.arrive c) with ⟨e | x, t⟩ <;> rw [hx] at hact <;>
    exact hact

theorem memtab_read (fd : Int) (n : Nat) : (s.read fd n).2.memtab = s.memtab := by
  refine memtab_syscall fun count s => ?_
  split <;> rfl

theorem memtab_write (fd : Int) (bs : List UInt8) : (s.write fd bs).2.memtab = s.memtab := by
  refine memtab_syscall fun count s => ?_
  split <;> rfl

/-- Behind a descriptor that no stream has, nothing follows. -/
theorem follow_none {d fd : Int} (hfd : a fd = none) {op : StreamOp} {ans : Answer}
    (hop : (∃ n, op = .ageread fd n) ∨ ∃ bs, op = .agewrite fd bs) :
    follow d (a d) (op, ans) = a d := by
  by_cases hd : fd = d
  · rw [← hd, hfd]
    rcases hop with ⟨n, rfl⟩ | ⟨bs, rfl⟩ <;> cases ans <;> (try rfl) <;> rename_i r <;>
      cases r <;> simp [follow]
  · refine follow_of_not_concerns ?_ _
    rcases hop with ⟨n, rfl⟩ | ⟨bs, rfl⟩ <;> simp [concerns, hd]

theorem Shows.next {f : MemFile} {st : Stream} (h : Shows f st) (n : Nat) :
    st.next n = (f.data.drop f.pos).take n := by
  rw [Stream.next, h.data, h.pos]

theorem memread_spec {t : Memtab} {i : Fin MEMFD_MAX} {st : Stream} (h : Shows (t i) st) (n : Nat) :
    (memread i n t).1 = st.next n ∧ ∃ f, (memread i n t).2 = Function.update t i f ∧
      Shows f (st.read (st.next n)) := by
  have hle := h.behind.length_le
  have hbehind : (st.read (st.next n)).reads <+: (st.read (st.next n)).content := by
    obtain ⟨rest, hrest⟩ := h.behind
    have hnext : st.next n = rest.take n := by rw [Stream.next, ← hrest, List.drop_left]
    refine ⟨rest.drop n, ?_⟩
    rw [hnext]
    cases st <;> simpa [Stream.read, Stream.reads, Stream.content] using hrest
  have hreads : (st.read (st.next n)).reads.length =
      (t i).pos + min n ((t i).data.length - (t i).pos) := by
    have hlen : (st.next n).length = min n ((t i).data.length - (t i).pos) := by
      rw [h.next, List.length_take, List.length_drop]
    rw [← hlen, h.pos]
    cases st <;> exact List.length_append
  have hcontent : (st.read (st.next n)).content = st.content := by cases st <;> rfl
  have hsink : (st.read (st.next n)).isSink = st.isSink := by cases st <;> rfl
  have hcap : (st.read (st.next n)).isSink = true →
      (t i).cap = capacity (st.read (st.next n)).content.length := by
    rw [hsink, hcontent]
    exact h.cap
  have hsize : (st.read (st.next n)).isSink = true →
      (st.read (st.next n)).content.length ≤ 2 ^ 63 := by
    rw [hsink, hcontent]
    exact h.size
  rw [memread]
  dsimp only
  split
  · rename_i havail
    have hdrop : (t i).data.drop (t i).pos = [] := List.drop_of_length_le (by omega)
    refine ⟨by rw [h.next, hdrop, List.take_nil], t i, (Function.update_eq_self i t).symm, ?_⟩
    exact ⟨h.used, h.write.trans hsink.symm, h.data.trans hcontent.symm,
      by rw [hreads, havail, Nat.min_zero]; rfl, hbehind, hcap, hsize⟩
  · refine ⟨?_, _, rfl, h.used, h.write.trans hsink.symm, h.data.trans hcontent.symm,
      hreads.symm, hbehind, hcap, hsize⟩
    rw [h.next]
    rcases Nat.le_total n ((t i).data.length - (t i).pos) with hn | hn
    · rw [Nat.min_eq_left hn]
    · rw [Nat.min_eq_right hn, List.take_of_length_le (by rw [List.length_drop]),
        List.take_of_length_le (by rw [List.length_drop]; exact hn)]

/-- The bytes are copied into a block of the capacity that they need. -/
theorem Shows.append {f : MemFile} {writes reads bs : List UInt8}
    (h : Shows f (.sink writes reads)) (hsize : (writes ++ bs).length ≤ 2 ^ 63) :
    Shows { f with data := f.data ++ bs, cap := capacity (writes ++ bs).length }
      (.sink (writes ++ bs) reads) :=
  ⟨h.used, h.write, congrArg (· ++ bs) h.data, h.pos,
    h.behind.trans (List.prefix_append writes bs), fun _ => rfl, fun _ => hsize⟩

/-- A call that moves one stream from `st` to `g st`. -/
theorem Represents.moved (h : Represents s.memtab a) {i : Fin MEMFD_MAX} {st : Stream}
    (hst : a (vfdOf i) = some st) {f : MemFile} {g : Stream → Stream} (hf : Shows f (g st)) :
    Represents (Function.update s.memtab i f) fun d =>
      if vfdOf i = d then (a d).map g else a d := by
  have hupd := h.update (i := i) (f := f) (by rw [hf.used, if_pos rfl]; exact .some hf)
  intro d
  have hd := hupd d
  by_cases heq : vfdOf i = d
  · simp only [if_pos heq] at hd ⊢
    rw [← heq, hst]
    rw [← heq] at hd
    exact hd
  · simp only [if_neg heq] at hd ⊢
    exact hd

theorem ageread_refines (h : Represents s.memtab a) (fd : Int) (nbytes : Nat) :
    Refines (s.allocs 0) a (.ageread fd nbytes) ((StreamOp.ageread fd nbytes).exec s) := by
  refine ⟨.bytes (s.ageread fd nbytes).1, (s.ageread fd nbytes).2, rfl, ?_⟩
  rw [Sys.ageread]
  split
  · rename_i hfd
    have hnone : a fd = none := h.eq_none (slot_of_ge (by omega))
    exact ⟨fun hneg => by omega,
      h.keep (memtab_read fd nbytes) fun d => follow_none hnone (.inl ⟨nbytes, rfl⟩)⟩
  cases hi : vfdToIndex s.memtab fd with
  | none =>
    have hnone : a fd = none := h.eq_none (by rw [slot, hi]; rfl)
    refine ⟨fun _ => by rw [hnone]; rfl, ?_⟩
    exact h.keep rfl fun d => follow_none hnone (.inl ⟨nbytes, rfl⟩)
  | some i =>
    obtain ⟨rfl, -⟩ := vfdToIndex_eq_some.mp hi
    obtain ⟨st, hst, hs⟩ := h.shows hi
    obtain ⟨hbytes, f, htab, hf⟩ := memread_spec hs nbytes
    refine ⟨fun _ => by rw [hst]; exact congrArg (Answer.bytes ∘ some) hbytes, ?_⟩
    show Represents (memread i nbytes s.memtab).2 _
    rw [← hbytes] at hf
    rw [htab]
    exact h.moved hst hf

/-- A write to a sink. -/
theorem memwrite_refines (h : Represents s.memtab a) {i : Fin MEMFD_MAX} {writes reads : List UInt8}
    (hst : a (vfdOf i) = some (.sink writes reads)) (hs : Shows (s.memtab i) (.sink writes reads))
    (bs : Buffer) :
    Refines (s.allocs 0) a (.agewrite (vfdOf i) bs)
      ((s.memwrite i bs.val).map fun x => (.count x.1, x.2)) := by
  have hdata : (s.memtab i).data = writes := hs.data
  have hcap : (s.memtab i).cap = capacity writes.length := hs.cap rfl
  have hlen : writes.length ≤ 2 ^ 63 := hs.size rfl
  have happ : (writes ++ bs.val).length = writes.length + bs.val.length := List.length_append
  have hneed := memneed_spec (t := s.memtab) (i := i) (by rw [hcap, hdata])
    (by rw [hdata]; exact hlen) bs.property
  rw [hdata, ← happ] at hneed
  -- a write that is refused
  have hrefused : ∀ s' : Sys, s'.memtab = s.memtab → ¬ HasRoom (s.allocs 0) writes bs.val →
      Refines (s.allocs 0) a (.agewrite (vfdOf i) bs) (some (.count none, s')) := by
    intro s' ht hnot
    refine ⟨_, s', rfl, fun _ => .inr ⟨rfl, fun w r hw => ?_⟩, h.keep ht fun d => rfl⟩
    rw [hst] at hw
    obtain ⟨rfl, rfl⟩ := Stream.sink.inj (Option.some.inj hw)
    exact hnot
  -- a write that has its block
  have hdone : ∀ s' : Sys, HasRoom (s.allocs 0) writes bs.val → s'.memtab = s.memtab →
      Refines (s.allocs 0) a (.agewrite (vfdOf i) bs)
        (((memappend i bs.val (capacity (writes ++ bs.val).length) s'.memtab).map fun memtab =>
          (some bs.val.length, { s' with memtab })).map fun x => (.count x.1, x.2)) := by
    intro s' htakes ht
    have hroom : (s.memtab i).data.length + bs.val.length ≤ capacity (writes ++ bs.val).length := by
      rw [hdata, ← happ]
      exact le_capacity _
    rw [ht, memappend_eq_some.mpr ⟨hroom, rfl⟩]
    refine ⟨_, _, rfl, fun _ => .inl ⟨rfl, writes, reads, hst, htakes⟩, ?_⟩
    exact h.moved hst (hs.append htakes.1)
  rw [Sys.memwrite, hneed]
  by_cases hmax : (writes ++ bs.val).length ≤ 2 ^ 63
  · rw [if_pos hmax]
    by_cases hfits : (writes ++ bs.val).length ≤ capacity writes.length
    · rw [if_pos hfits]
      have hsame := capacity_of_le (by omega) hfits
      have := hdone s ⟨hmax, .inl hfits⟩ rfl
      rwa [hsame, ← hcap] at this
    · rw [if_neg hfits]
      dsimp only
      rw [Sys.malloc]
      cases hmem : s.allocs 0 (capacity (writes ++ bs.val).length) with
      | false =>
        refine hrefused _ rfl fun htakes => ?_
        rcases htakes.2 with hle | halloc
        · exact hfits hle
        · rw [hmem] at halloc
          cases halloc
      | true => exact hdone { s with allocs := fun i => s.allocs (i + 1) } ⟨hmax, .inr hmem⟩ rfl
  · rw [if_neg hmax]
    exact hrefused { s with failed := s.failed + 1 } rfl fun htakes => hmax htakes.1

theorem agewrite_refines (h : Represents s.memtab a) (fd : Int) (bs : Buffer) :
    Refines (s.allocs 0) a (.agewrite fd bs) ((StreamOp.agewrite fd bs).exec s) := by
  -- a call on a descriptor that is no sink
  have hrefused : (∀ writes reads, a fd ≠ some (.sink writes reads)) →
      Refines (s.allocs 0) a (.agewrite fd bs)
        (some (.count none, { s with failed := s.failed + 1 })) := fun hnot =>
    ⟨_, _, rfl, fun _ => .inr ⟨rfl, fun w r hw => absurd hw (hnot w r)⟩, h.keep rfl fun d => rfl⟩
  show Refines (s.allocs 0) a (.agewrite fd bs)
    ((s.agewrite fd bs.val).map fun x => (.count x.1, x.2))
  rw [Sys.agewrite]
  split
  · rename_i hfd
    have hnone : a fd = none := h.eq_none (slot_of_ge (by omega))
    exact ⟨_, _, rfl, fun hneg => by omega,
      h.keep (memtab_write fd bs.val) fun d => follow_none hnone (.inr ⟨bs, rfl⟩)⟩
  cases hi : vfdToIndex s.memtab fd with
  | none =>
    have hnone : a fd = none := h.eq_none (by rw [slot, hi]; rfl)
    refine hrefused fun writes reads hst => ?_
    rw [hnone] at hst
    cases hst
  | some i =>
    obtain ⟨rfl, -⟩ := vfdToIndex_eq_some.mp hi
    obtain ⟨st, hst, hs⟩ := h.shows hi
    dsimp only
    cases st with
    | source data reads =>
      have hsource : (s.memtab i).write = false := hs.write
      rw [hsource, if_neg Bool.false_ne_true]
      refine hrefused fun w r hw => ?_
      rw [hst] at hw
      cases hw
    | sink writes reads =>
      have hsink : (s.memtab i).write = true := hs.write
      rw [if_pos hsink]
      exact memwrite_refines h hst hs bs

/-- One call. -/
theorem exec_refines (h : Represents s.memtab a) (op : StreamOp) :
    Refines (s.allocs 0) a op (op.exec s) := by
  cases op with
  | memopenRead data => exact memopenRead_refines h data
  | memopenWrite => exact memopenWrite_refines h
  | ageread fd nbytes => exact ageread_refines h fd nbytes
  | agewrite fd bs => exact agewrite_refines h fd bs
  | memdata vfd => exact memdata_refines h vfd
  | memclose vfd => exact memclose_refines h vfd

/-- What is in a sink lies inside its block. -/
theorem Represents.length_le (h : Represents s.memtab a) {i : Fin MEMFD_MAX}
    (hused : inUse s.memtab i = true) (hwrite : (s.memtab i).write = true) :
    (s.memtab i).data.length ≤ (s.memtab i).cap := by
  obtain ⟨st, -, hs⟩ := h.shows (vfdToIndex_vfdOf hused)
  rw [hs.cap (hs.write.symm.trans hwrite), hs.data]
  exact le_capacity _

end

/-! ## Any calls -/

theorem History.represents {h : List StreamEvent} {t : Memtab} (hh : History h t) :
    Represents t fun d => streamAfter d h := by
  induction hh with
  | start => exact represents_empty
  | @call h s s' ans op _ hexec ih =>
    obtain ⟨ans', t, hexec', -, hstep⟩ := exec_refines ih op
    obtain ⟨rfl, rfl⟩ := Prod.mk.inj (Option.some.inj (hexec'.symm.trans hexec))
    intro d
    have hd := hstep d
    show Option.Rel Shows _ (streamAfter d (h ++ _))
    rw [streamAfter, List.foldl_append]
    exact hd

/-- What was read from a stream are the first of its bytes. -/
theorem History.reads_prefix {h : List StreamEvent} {t : Memtab} (hh : History h t) {d : Int}
    {st : Stream} (hst : streamAfter d h = some st) : st.reads <+: st.content := by
  have hrel : Option.Rel Shows (slot t d) (streamAfter d h) := hh.represents d
  rw [hst] at hrel
  cases hslot : slot t d with
  | none =>
    rw [hslot] at hrel
    cases hrel
  | some f =>
    rw [hslot] at hrel
    cases hrel with
    | some hs => exact hs.behind

/-- After any calls every call has an outcome, and the table answers as the
independent streams do that the calls have opened.  What is in a sink lies
inside its block. -/
theorem memtab_refines_streams {h : List StreamEvent} {s : Sys} (hh : History h s.memtab)
    (op : StreamOp) :
    (∃ ans s', op.exec s = some (ans, s') ∧
      Fits (s.allocs 0) (fun d => streamAfter d h) op ans) ∧
    (∀ i, inUse s.memtab i = true → (s.memtab i).write = true →
      (s.memtab i).data.length ≤ (s.memtab i).cap) ∧
    (∀ d st, streamAfter d h = some st → st.reads <+: st.content) ∧
    ∀ d, streamAfter d h = streamAfter d (h.filter (concerns d)) := by
  obtain ⟨ans, s', hexec, hfits, -⟩ := exec_refines hh.represents op
  exact ⟨⟨ans, s', hexec, hfits⟩, fun _ => hh.represents.length_le, fun _ _ => hh.reads_prefix,
    fun d => (streamAfter_filter d h).symm⟩

/-- Two streams under way, and the slot of one of them used again. -/
def sampleCalls : List StreamOp :=
  [.memopenRead ⟨[1, 2, 3], by decide⟩, .memopenWrite, .ageread (-2) 2,
    .agewrite (-3) ⟨[7], by decide⟩, .memclose (-2), .memopenRead ⟨[4], by decide⟩]

/-- Calls one after the other, with the events behind `h`. -/
def execAll : List StreamOp → List StreamEvent → Sys → Option (List StreamEvent × Sys)
  | [], h, s => some (h, s)
  | op :: ops, h, s => (op.exec s).bind fun x => execAll ops (h ++ [(op, x.1)]) x.2

theorem history_execAll (ops : List StreamOp) : ∀ {h h' : List StreamEvent} {s s' : Sys},
    History h s.memtab → execAll ops h s = some (h', s') → History h' s'.memtab := by
  induction ops with
  | nil =>
    intro h h' s s' hh he
    obtain ⟨rfl, rfl⟩ := Prod.mk.inj (Option.some.inj he)
    exact hh
  | cons op ops ih =>
    intro h h' s s' hh he
    obtain ⟨⟨ans, s₁⟩, hexec, he⟩ := Option.bind_eq_some_iff.mp he
    exact ih (.call op hh hexec) he

/-- A system with memory for blocks of 4096 bytes only. -/
def smallSys : Sys := { Sys.steady [] 0 with allocs := fun _ n => n ≤ 4096 }

def fourKilobytes : Buffer := ⟨List.replicate 4096 0, by decide +kernel⟩

theorem memtab_refines_streams_sample :
    ∃ h s ans s', execAll sampleCalls [] smallSys = some (h, s) ∧
      streamAfter (-2) h = some (.source [4] []) ∧ streamAfter (-3) h = some (.sink [7] []) ∧
      (StreamOp.agewrite (-3) fourKilobytes).exec s = some (ans, s') ∧
      Fits (s.allocs 0) (fun d => streamAfter d h) (.agewrite (-3) fourKilobytes) ans := by
  have hrun : (execAll sampleCalls [] smallSys).map
      (fun x => (streamAfter (-2) x.1, streamAfter (-3) x.1)) =
      some (some (.source [4] []), some (.sink [7] [])) := by decide +kernel
  obtain ⟨⟨h, s⟩, he, hstreams⟩ := Option.map_eq_some_iff.mp hrun
  obtain ⟨hsource, hsink⟩ := Prod.mk.inj hstreams
  have hstart : History [] smallSys.memtab := .start
  obtain ⟨⟨ans, s', hexec, hfits⟩, -⟩ :=
    memtab_refines_streams (history_execAll sampleCalls hstart he) (.agewrite (-3) fourKilobytes)
  exact ⟨h, s, ans, s', he, hsource, hsink, hexec, hfits⟩

end Agecrypt
