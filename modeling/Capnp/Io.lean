import Mathlib.Data.List.Basic

/-!
# Byte streams

The reader takes any `R: Read`. A stream is modelled by its script: the answers it gives, in
order, to the reader's `read` calls. An answer is a chunk of bytes that are ready, or an
`io::Error`. `Script.read` serves one call: it returns at most the requested number of bytes, and
the rest of a longer chunk answers the next call, so every script respects the `Read` contract
the reader relies on. A script that has run out is a stream at its end: every further read
returns zero bytes.

`Script.bytes` is the content a script carries. `Script.Flows` marks the scripts a reader drains
without stopping (non-empty chunks and `Interrupted` errors), and `Script.skip n` is such a
script after reads that took its first `n` bytes (`bytes_skip`). `Script.Remains read read'`
says that `read'` is left of `read` after such reads; it is transitive (`Remains.trans`), and
what it consumed comes before any end of the stream (`Remains.consumed_before_end`).
`Delivers script s` says that `script` delivers exactly `s` in non-empty chunks, with
`WouldBlock` and `Interrupted` answers between them, and then ends.

`writeAt` is what a read into the subslice `buf[idx..]` does to `buf`.
-/

set_option autoImplicit false

namespace Capnp.Io

/-- `io::ErrorKind`, the kinds of the standard library. -/
inductive ErrorKind where
  | notFound
  | permissionDenied
  | connectionRefused
  | connectionReset
  | connectionAborted
  | notConnected
  | addrInUse
  | addrNotAvailable
  | brokenPipe
  | alreadyExists
  | wouldBlock
  | invalidInput
  | invalidData
  | timedOut
  | writeZero
  | interrupted
  | other
  | unexpectedEof
  deriving DecidableEq, Repr

/-- `io::Error`: a kind and a description. -/
structure Error where
  kind : ErrorKind
  description : String
  deriving DecidableEq, Repr

/-- One answer of a stream to a `read` call: bytes that are ready, or an error. -/
inductive Event where
  | data (bytes : List UInt8)
  | fail (e : Error)
  deriving DecidableEq, Repr

/-- A stream, as the answers it gives to the reader's `read` calls, in order. -/
abbrev Script := List Event

namespace Script

/-- `Read::read` into a buffer of `n` bytes: at most `n` bytes of the next chunk, the rest of the
chunk answering the next call. An empty chunk, like the end of the script, is a read of zero
bytes. -/
def read : Script → Nat → Except Error (List UInt8) × Script
  | [], _ => (.ok [], [])
  | .data b :: s, n => if b.length ≤ n then (.ok b, s) else (.ok (b.take n), .data (b.drop n) :: s)
  | .fail e :: s, _ => (.error e, s)

/-- The bytes of the script's chunks, in order. -/
def bytes : Script → List UInt8
  | [] => []
  | .data b :: s => b ++ bytes s
  | .fail _ :: s => bytes s

/-- A measure that every read answered by a chunk of bytes, or by an error, lowers. -/
def weight : Script → Nat
  | [] => 0
  | .data b :: s => b.length + 1 + weight s
  | .fail _ :: s => weight s + 1

@[simp] theorem bytes_nil : bytes [] = [] := rfl

@[simp] theorem bytes_data (b : List UInt8) (s : Script) : bytes (.data b :: s) = b ++ bytes s := rfl

@[simp] theorem bytes_fail (e : Error) (s : Script) : bytes (.fail e :: s) = bytes s := rfl

@[simp] theorem bytes_append (s t : Script) : bytes (s ++ t) = bytes s ++ bytes t := by
  induction s with
  | nil => rfl
  | cons ev s ih => cases ev <;> simp [ih]

/-- A read returns at most the bytes it was asked for. -/
theorem read_length_le {s : Script} {n : Nat} {b : List UInt8} {s' : Script}
    (h : s.read n = (.ok b, s')) : b.length ≤ n := by
  match s with
  | [] => simp only [read, Prod.mk.injEq, Except.ok.injEq] at h; simp [← h.1]
  | .data c :: t =>
    simp only [read] at h
    split at h <;> simp only [Prod.mk.injEq, Except.ok.injEq] at h <;> rw [← h.1]
    · assumption
    · exact List.length_take_le _ _

/-- A read takes its bytes from the front of the script. -/
theorem bytes_read {s : Script} {n : Nat} {b : List UInt8} {s' : Script}
    (h : s.read n = (.ok b, s')) : s.bytes = b ++ s'.bytes := by
  match s with
  | [] => simp only [read, Prod.mk.injEq, Except.ok.injEq] at h; simp [← h.1, ← h.2]
  | .data c :: t =>
    simp only [read] at h
    split at h <;> simp only [Prod.mk.injEq, Except.ok.injEq] at h <;> rw [← h.1, ← h.2]
    · rfl
    · simp only [bytes_data]
      rw [← List.append_assoc, List.take_append_drop]
  | .fail e :: t => simp [read] at h

theorem weight_read_lt_of_ok {s : Script} {n : Nat} {b : UInt8} {bs : List UInt8} {s' : Script}
    (h : s.read n = (.ok (b :: bs), s')) : s'.weight < s.weight := by
  match s with
  | [] => simp [read] at h
  | .data c :: t =>
    simp only [read] at h
    split at h <;> simp only [Prod.mk.injEq, Except.ok.injEq] at h <;> obtain ⟨h1, rfl⟩ := h
    · simp only [weight]; omega
    · have := congrArg List.length h1
      simp only [List.length_take, List.length_cons] at this
      simp only [weight, List.length_drop]; omega
  | .fail e :: t => simp [read] at h

theorem weight_read_lt_of_error {s : Script} {n : Nat} {e : Error} {s' : Script}
    (h : s.read n = (.error e, s')) : s'.weight < s.weight := by
  match s with
  | [] => simp [read] at h
  | .data c :: t => simp only [read] at h; split at h <;> simp at h
  | .fail e :: t => simp only [read, Prod.mk.injEq] at h; simp only [weight, ← h.2]; omega

end Script

/-! ## Scripts a reader drains without stopping -/

/-- A non-empty chunk, or an `Interrupted` error: an answer after which a reader that needs more
bytes reads again. -/
def Event.flows : Event → Bool
  | .data b => !b.isEmpty
  | .fail e => e.kind == .interrupted

namespace Script

/-- Every answer of the script is one a reader reads on after. -/
def Flows (s : Script) : Prop := ∀ ev ∈ s, ev.flows = true

/-- The script after the reads that took its first `n` bytes, the `Interrupted` answers before
them included. -/
def skip : Nat → Script → Script
  | 0, s => s
  | _ + 1, [] => []
  | n + 1, .data b :: s => if b.length ≤ n + 1 then skip (n + 1 - b.length) s else .data (b.drop (n + 1)) :: s
  | n + 1, .fail _ :: s => skip (n + 1) s

@[simp] theorem flows_nil : Flows [] := by simp [Flows]

@[simp] theorem flows_cons {ev : Event} {s : Script} :
    Flows (ev :: s) ↔ ev.flows = true ∧ Flows s := by
  simp [Flows]

@[simp] theorem skip_zero (s : Script) : skip 0 s = s := by cases s <;> rfl

@[simp] theorem skip_nil (n : Nat) : skip n [] = [] := by cases n <;> rfl

theorem flows_skip {s : Script} (h : Flows s) (n : Nat) : Flows (skip n s) := by
  induction s generalizing n with
  | nil => cases n <;> simp [skip]
  | cons ev s ih =>
    rw [flows_cons] at h
    match n, ev with
    | 0, _ => simpa using h
    | n + 1, .fail _ => exact ih h.2 _
    | n + 1, .data b =>
      simp only [skip]
      split
      · exact ih h.2 _
      · simp only [flows_cons, Event.flows, List.isEmpty_eq_false, ne_eq, List.drop_eq_nil_iff,
          not_le, Bool.not_eq_true', Bool.not_eq_false]
        exact ⟨by omega, h.2⟩

/-- Skipping `a` bytes and then `b` more is skipping `a + b`. -/
theorem skip_skip (a b : Nat) (s : Script) : skip b (skip a s) = skip (a + b) s := by
  induction s generalizing a with
  | nil => simp
  | cons ev s ih =>
    match a, ev with
    | 0, _ => simp
    | a + 1, .fail e =>
      rw [Nat.add_right_comm]
      simp only [skip]
      rw [ih, Nat.add_right_comm]
    | a + 1, .data c =>
      rw [Nat.add_right_comm]
      simp only [skip]
      by_cases hc : c.length ≤ a + 1
      · rw [if_pos hc, if_pos (by omega), ih]
        congr 1
        omega
      · rw [if_neg hc]
        match b with
        | 0 => simp [hc]
        | b + 1 =>
          simp only [skip, List.length_drop, List.drop_drop]
          by_cases hcb : c.length ≤ a + (b + 1) + 1
          · rw [if_pos (by omega), if_pos hcb]
            congr 1
            omega
          · rw [if_neg (by omega), if_neg hcb]
            congr 3
            omega

/-- Every script is a flowing prefix followed by nothing, or by an answer that stops a reader. -/
theorem exists_flows_prefix (s : Script) :
    ∃ p t, p.Flows ∧ s = p ++ t ∧ (t = [] ∨ ∃ ev t', t = ev :: t' ∧ ev.flows = false) := by
  induction s with
  | nil => exact ⟨[], [], flows_nil, rfl, .inl rfl⟩
  | cons ev s ih =>
    cases hev : ev.flows
    · exact ⟨[], ev :: s, flows_nil, rfl, .inr ⟨ev, s, rfl, hev⟩⟩
    · obtain ⟨p, t, hp, rfl, ht⟩ := ih
      exact ⟨ev :: p, t, flows_cons.2 ⟨hev, hp⟩, rfl, ht⟩

/-- Skipping `n` bytes drops exactly the first `n` bytes of the content. -/
theorem bytes_skip (s : Script) (n : Nat) : (skip n s).bytes = s.bytes.drop n := by
  induction s generalizing n with
  | nil => cases n <;> simp [skip]
  | cons ev s ih =>
    match n, ev with
    | 0, _ => simp
    | n + 1, .fail _ => simp [skip, ih]
    | n + 1, .data b =>
      simp only [skip, bytes_data]
      split
      · have hb : b.drop (n + 1) = [] := List.drop_eq_nil_of_le (by omega)
        rw [ih, List.drop_append_eq_append_drop, hb, List.nil_append]
      · rw [bytes_data, List.drop_append_of_le_length (by omega)]

end Script

/-! ## Delivery in chunks -/

/-- `script` delivers exactly `s` and then ends: non-empty chunks of `s` in order, with any number
of `WouldBlock` and `Interrupted` answers between them. -/
inductive Delivers : Script → List UInt8 → Prop where
  | nil : Delivers [] []
  | data {b : List UInt8} {s : List UInt8} {t : Script} :
      b ≠ [] → Delivers t s → Delivers (.data b :: t) (b ++ s)
  | pause {e : Error} {s : List UInt8} {t : Script} :
      e.kind = .wouldBlock ∨ e.kind = .interrupted → Delivers t s → Delivers (.fail e :: t) s

namespace Script

/-- `s` in one chunk: a stream that has all of `s` ready at once, then ends. -/
def oneChunk (s : List UInt8) : Script := if s = [] then [] else [.data s]

@[simp] theorem oneChunk_nil : oneChunk [] = [] := rfl

@[simp] theorem bytes_oneChunk (s : List UInt8) : (oneChunk s).bytes = s := by
  unfold oneChunk; split <;> simp_all

theorem flows_oneChunk (s : List UInt8) : (oneChunk s).Flows := by
  unfold oneChunk; split <;> simp_all [Event.flows]

theorem skip_oneChunk (n : Nat) (s : List UInt8) : skip n (oneChunk s) = oneChunk (s.drop n) := by
  match n, s with
  | 0, _ => simp
  | _ + 1, [] => rfl
  | n + 1, x :: xs =>
    simp only [oneChunk, reduceCtorEq, if_false, skip, List.drop_succ_cons, List.drop_eq_nil_iff,
      List.length_cons, Nat.add_le_add_iff_right, skip_nil]

theorem length_skip_le (n : Nat) (s : Script) : (skip n s).length ≤ s.length := by
  induction s generalizing n with
  | nil => cases n <;> simp [skip]
  | cons ev s ih =>
    match n, ev with
    | 0, _ => simp
    | n + 1, .fail _ => simp only [skip, List.length_cons]; have := ih (n + 1); omega
    | n + 1, .data b =>
      simp only [skip]
      split
      · have := ih (n + 1 - b.length); simp; omega
      · simp

end Script

namespace Script

@[simp] theorem flows_append {s t : Script} : Flows (s ++ t) ↔ Flows s ∧ Flows t := by
  simp [Flows, or_imp, forall_and]

/-- A flowing script has no read of zero bytes. -/
theorem Flows.not_mem_data_nil {s : Script} (h : s.Flows) : .data [] ∉ s := fun hm => by
  simpa [Event.flows] using h _ hm

/-- Skipping no more bytes than `s` holds stays inside `s`. -/
theorem skip_append_of_le (s x : Script) {n : Nat} (h : n ≤ s.bytes.length) :
    skip n (s ++ x) = skip n s ++ x := by
  induction s generalizing n with
  | nil =>
    obtain rfl : n = 0 := by simpa using h
    simp
  | cons ev s ih =>
    match n, ev with
    | 0, _ => simp
    | n + 1, .fail _ => exact ih (by simpa using h)
    | n + 1, .data b =>
      simp only [List.cons_append, skip]
      split
      · exact ih (by simp at h; omega)
      · rfl

/-- Answers `q` read from the front of a script lie before an answer that is not among them: if
the script is `pre` followed by nothing, or by an answer `q` does not hold, `q` starts `pre`. -/
theorem eq_append_of_stop {q r pre tail : Script} (h : q ++ r = pre ++ tail)
    (ht : tail = [] ∨ ∃ ev t', tail = ev :: t' ∧ ev ∉ q) : ∃ u, pre = q ++ u := by
  rcases List.append_eq_append_iff.mp h with ⟨u, hu, -⟩ | ⟨c, hc, htail⟩
  · -- `q` is a prefix of `pre`
    exact ⟨u, hu⟩
  · -- `pre` is a prefix of `q`, and `tail` starts with what is left of `q`
    cases c with
    | nil => exact ⟨[], by simpa using hc.symm⟩
    | cons ev c =>
      rw [List.cons_append] at htail
      rcases ht with rfl | ⟨ev', t', rfl, hev⟩
      · cases htail
      · obtain ⟨rfl, -⟩ := List.cons.inj htail
        exact absurd (by rw [hc]; simp) hev

/-- `read'` is what is left of `read` after reading on through chunks and `Interrupted` answers:
`read` starts with a flowing prefix, and its first `n` bytes are read. -/
def Remains (read read' : Script) : Prop :=
  ∃ p t n, p.Flows ∧ read = p ++ t ∧ read' = p.skip n ++ t ∧ n ≤ p.bytes.length

theorem Remains.refl (read : Script) : Remains read read :=
  ⟨[], read, 0, flows_nil, rfl, rfl, Nat.zero_le _⟩

/-- Reading on twice is reading on once. -/
theorem Remains.trans {a b c : Script} (h₁ : a.Remains b) (h₂ : b.Remains c) : a.Remains c := by
  obtain ⟨p, t, n, hp, rfl, rfl, hn⟩ := h₁
  obtain ⟨p', t', n', hp', hb, rfl, hn'⟩ := h₂
  rcases List.append_eq_append_iff.mp hb with ⟨x, rfl, rfl⟩ | ⟨y, hy, rfl⟩
  · -- the second read goes on past what was left of `p`, into `x`
    refine ⟨p ++ x, t', n + n', flows_append.2 ⟨hp, (flows_append.1 hp').2⟩, by simp, ?_, ?_⟩
    · rw [← skip_skip, skip_append_of_le _ _ hn]
    · simp only [bytes_append, bytes_skip, List.length_append, List.length_drop] at hn' ⊢
      omega
  · -- the second read stops inside what was left of `p`
    have hlen := congrArg (fun s : Script => s.bytes.length) hy
    simp only [bytes_append, bytes_skip, List.length_append, List.length_drop] at hlen
    refine ⟨p, t, n + n', hp, rfl, ?_, by omega⟩
    rw [← skip_skip, hy, skip_append_of_le _ _ hn', List.append_assoc]

/-- An error answer left after reading on through a flowing prefix was there before, unless it
is an `Interrupted` answer the prefix retried; when the answers before it flow, so do the ones
before it in `read`. -/
theorem Remains.fail {read r pre read' : Script} {e : Io.Error} (h : read.Remains r)
    (he : e.kind ≠ .interrupted) (hr : r = pre ++ .fail e :: read') :
    ∃ pre', read = pre' ++ .fail e :: read' ∧ (pre.Flows → pre'.Flows) := by
  obtain ⟨p, t, n, hp, rfl, rfl, -⟩ := h
  have hnot : Event.fail e ∉ p.skip n := fun hm => by
    simpa [Event.flows, he] using flows_skip hp n _ hm
  obtain ⟨u, rfl⟩ := eq_append_of_stop hr (.inr ⟨_, read', rfl, hnot⟩)
  rw [List.append_assoc, List.append_cancel_left_eq] at hr
  subst hr
  exact ⟨p ++ u, by simp, fun hf => flows_append.2 ⟨hp, (flows_append.1 hf).2⟩⟩

/-- A `WouldBlock` answer left after reading on through a flowing prefix was there before; when
the answers before it flow, so do the ones before it in `read`. -/
theorem Remains.wouldBlock {read r pre read' : Script} {e : Error} (h : Remains read r)
    (he : e.kind = .wouldBlock) (hpre : pre.Flows) (hr : r = pre ++ .fail e :: read') :
    ∃ pre', pre'.Flows ∧ read = pre' ++ .fail e :: read' := by
  obtain ⟨pre', hread, hf⟩ := h.fail (by rw [he]; decide) hr
  exact ⟨pre', hf hpre, hread⟩

/-- What was read on through comes before an end of the stream: if `read` ends after `pre`, the
bytes `c` consumed on the way to `read'` start the bytes of `pre`. -/
theorem Remains.consumed_before_end {read read' pre tail : Script} {c : List UInt8}
    (h : read.Remains read') (hc : read.bytes = c ++ read'.bytes) (hread : read = pre ++ tail)
    (htail : tail = [] ∨ ∃ t', tail = .data [] :: t') : ∃ rest, pre.bytes = c ++ rest := by
  obtain ⟨p, t, n, hp, rfl, rfl, -⟩ := h
  obtain ⟨u, rfl⟩ :=
    eq_append_of_stop hread (htail.imp_right fun ⟨t', h⟩ => ⟨_, t', h, hp.not_mem_data_nil⟩)
  rw [bytes_append, bytes_append, bytes_skip, ← List.append_assoc] at hc
  refine ⟨p.bytes.drop n ++ u.bytes, ?_⟩
  rw [bytes_append, ← List.append_assoc, ← List.append_cancel_right hc]

end Script

namespace Delivers

/-- A flowing prefix in front of a delivery is delivered too. -/
theorem flows_append {p : Script} (hp : p.Flows) {t : Script} {s : List UInt8}
    (h : Delivers t s) : Delivers (p ++ t) (p.bytes ++ s) := by
  induction p with
  | nil => simpa using h
  | cons ev p ih =>
    rw [Script.flows_cons] at hp
    match ev, hp.1 with
    | .data (x :: xs), _ => simpa using Delivers.data (List.cons_ne_nil x xs) (ih hp.2)
    | .fail e, he => exact .pause (.inr (by simpa [Event.flows] using he)) (ih hp.2)

theorem oneChunk (s : List UInt8) : Delivers (Script.oneChunk s) s := by
  simpa using flows_append (Script.flows_oneChunk s) Delivers.nil

/-- What a delivery delivers is the bytes of its chunks. -/
theorem bytes_eq {script : Script} {s : List UInt8} (h : Delivers script s) : script.bytes = s := by
  induction h with
  | nil => rfl
  | data _ _ ih => rw [Script.bytes_data, ih]
  | pause _ _ ih => rw [Script.bytes_fail, ih]

theorem eq_nil_of_nil {s : List UInt8} (h : Delivers [] s) : s = [] := by
  cases h
  rfl

/-- A delivery is a flowing prefix followed by the end of the stream, or by a `WouldBlock` and
the delivery of the rest. -/
theorem split {script : Script} {s : List UInt8} (h : Delivers script s) :
    ∃ p rest s', p.Flows ∧ script = p ++ rest ∧ s = p.bytes ++ s' ∧
      (rest = [] ∧ s' = [] ∨
        ∃ e rest', e.kind = .wouldBlock ∧ rest = .fail e :: rest' ∧ Delivers rest' s') := by
  induction h with
  | nil => exact ⟨[], [], [], Script.flows_nil, rfl, rfl, .inl ⟨rfl, rfl⟩⟩
  | @data b s t hb _ ih =>
    obtain ⟨p, rest, s', hp, rfl, rfl, hrest⟩ := ih
    refine ⟨.data b :: p, rest, s', ?_, rfl, by simp, hrest⟩
    simpa [Event.flows, hb] using hp
  | @pause e s t he hd ih =>
    rcases he with hw | hi
    · exact ⟨[], .fail e :: t, s, Script.flows_nil, rfl, rfl, .inr ⟨e, t, hw, rfl, hd⟩⟩
    · obtain ⟨p, rest, s', hp, rfl, rfl, hrest⟩ := ih
      exact ⟨.fail e :: p, rest, s', by simpa [Event.flows, hi] using hp, rfl, rfl, hrest⟩

end Delivers

/-! ## Writing into a subslice -/

/-- `buf` with `src` written over it from position `idx` on, keeping the length of `buf`: what a
read into the subslice `buf[idx..]` does to `buf`. -/
def writeAt : List UInt8 → Nat → List UInt8 → List UInt8
  | buf, _, [] => buf
  | [], _, _ => []
  | _ :: buf, 0, x :: src => x :: writeAt buf 0 src
  | b :: buf, i + 1, x :: src => b :: writeAt buf i (x :: src)

@[simp] theorem length_writeAt (buf : List UInt8) (i : Nat) (src : List UInt8) :
    (writeAt buf i src).length = buf.length := by
  induction buf generalizing i src with
  | nil => cases src <;> simp [writeAt]
  | cons b buf ih => cases src <;> cases i <;> simp [writeAt, ih]

@[simp] theorem writeAt_nil (buf : List UInt8) (i : Nat) : writeAt buf i [] = buf := by
  cases buf <;> cases i <;> rfl

@[simp] theorem writeAt_nil_left (i : Nat) (src : List UInt8) : writeAt [] i src = [] := by
  cases src <;> rfl

@[simp] theorem writeAt_cons_succ (b : UInt8) (buf : List UInt8) (i : Nat) (src : List UInt8) :
    writeAt (b :: buf) (i + 1) src = b :: writeAt buf i src := by
  cases src <;> simp [writeAt]

@[simp] theorem writeAt_cons_zero (b x : UInt8) (buf src : List UInt8) :
    writeAt (b :: buf) 0 (x :: src) = x :: writeAt buf 0 src := rfl

/-- A write of one byte is a `set`. -/
theorem writeAt_singleton (buf : List UInt8) (i : Nat) (x : UInt8) :
    writeAt buf i [x] = buf.set i x := by
  induction buf generalizing i with
  | nil => simp
  | cons b buf ih => cases i <;> simp [ih]

/-- Two writes end to end are one write of both. -/
theorem writeAt_append (buf : List UInt8) (i : Nat) (a c : List UInt8) :
    writeAt (writeAt buf i a) (i + a.length) c = writeAt buf i (a ++ c) := by
  induction buf generalizing i a with
  | nil => simp
  | cons b buf ih =>
    match i, a with
    | _, [] => simp
    | 0, x :: a => simpa using ih 0 a
    | i + 1, x :: a =>
      rw [writeAt_cons_succ, Nat.add_right_comm, writeAt_cons_succ, writeAt_cons_succ, ih]

/-- Setting the byte just past a write extends the write. -/
theorem set_writeAt (buf : List UInt8) (i : Nat) (src : List UInt8) (x : UInt8) :
    (writeAt buf i src).set (i + src.length) x = writeAt buf i (src ++ [x]) := by
  rw [← writeAt_singleton, writeAt_append]

/-- A write from past the end of the buffer changes nothing. -/
theorem writeAt_of_le (buf : List UInt8) (i : Nat) (src : List UInt8) (h : buf.length ≤ i) :
    writeAt buf i src = buf := by
  induction buf generalizing i with
  | nil => simp
  | cons b buf ih =>
    obtain ⟨j, rfl⟩ : ∃ j, i = j + 1 := ⟨i - 1, by simp at h; omega⟩
    rw [writeAt_cons_succ, ih j (by simp at h; omega)]

/-- The bytes of a write that fall past the end of the buffer are dropped. -/
theorem writeAt_take (buf : List UInt8) (i : Nat) (src : List UInt8) :
    writeAt buf i (src.take (buf.length - i)) = writeAt buf i src := by
  induction buf generalizing i src with
  | nil => simp
  | cons b buf ih =>
    match i, src with
    | _, [] => simp
    | 0, x :: src => simpa using ih 0 src
    | i + 1, x :: src => simpa using ih i (x :: src)

/-- Bytes past the end of the buffer are not written. -/
theorem writeAt_append_of_le (buf : List UInt8) (i : Nat) (a c : List UInt8)
    (h : buf.length ≤ i + a.length) : writeAt buf i (a ++ c) = writeAt buf i a := by
  rw [← writeAt_take buf i (a ++ c), ← writeAt_take buf i a,
    List.take_append_of_le_length (by omega)]

/-- Writing a whole buffer's worth from its start replaces the buffer. -/
theorem writeAt_zero_of_length (buf src : List UInt8) (h : src.length = buf.length) :
    writeAt buf 0 src = src := by
  induction buf generalizing src with
  | nil => simp_all
  | cons b buf ih =>
    match src, h with
    | x :: src, h => rw [writeAt_cons_zero, ih src (by simpa using h)]

/-- Filling the subslice `buf[i..]` and putting it back is one write into `buf`. -/
theorem writeAt_writeAt_drop (buf : List UInt8) (i : Nat) (src : List UInt8) :
    writeAt buf i (writeAt (buf.drop i) 0 src) = writeAt buf i src := by
  induction buf generalizing i with
  | nil => simp
  | cons b buf ih =>
    match i with
    | 0 => rw [List.drop_zero, writeAt_zero_of_length _ _ (length_writeAt _ _ _)]
    | i + 1 => rw [List.drop_succ_cons, writeAt_cons_succ, writeAt_cons_succ, ih]

/-- A write that fits replaces exactly the bytes it covers. -/
theorem writeAt_eq (buf : List UInt8) (i : Nat) (src : List UInt8)
    (h : i + src.length ≤ buf.length) :
    writeAt buf i src = buf.take i ++ src ++ buf.drop (i + src.length) := by
  induction buf generalizing i src with
  | nil => cases src <;> simp_all
  | cons b buf ih =>
    match i, src with
    | _, [] => simp
    | 0, x :: src => simp [writeAt, ih 0 src (by simp at h; omega)]
    | i + 1, x :: src =>
      simp only [writeAt, ih i (x :: src) (by simp at h ⊢; omega)]
      simp [Nat.add_right_comm i 1]

/-- What a write that fits leaves before its end: the bytes before it, then the bytes written. -/
theorem take_writeAt (buf : List UInt8) (idx : Nat) (q : List UInt8)
    (h : idx + q.length ≤ buf.length) :
    (writeAt buf idx q).take (idx + q.length) = buf.take idx ++ q := by
  rw [writeAt_eq _ _ _ h, List.take_left' (by simp; omega)]

end Capnp.Io
