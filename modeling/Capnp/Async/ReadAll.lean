import Capnp.Io

/-!
# The non-blocking drain

`asyncReadAll` is `async_read_all`: it reads into a buffer until the buffer is full or a read
would block. Its behaviour is given by what the script holds before its first answer that stops
a reader (`Script.Flows`):

- `loop_flows_full`: if the flowing part holds enough bytes, the buffer is filled from it and the
  reads stop at the byte that fills it;
- `loop_flows_short`: otherwise the whole flowing part is read into the buffer, and the next
  answer decides: `WouldBlock` returns the count so far (`loop_wouldBlock`), the end of the
  stream or an empty chunk is a premature end of stream (`loop_nil`, `loop_data_nil`), and any
  other error is passed on (`loop_fail`).

`asyncReadAll_eq_ok` says once what every `Ok` of the drain is, `asyncReadAll_eq_error` what
every error is, and `asyncReadAll_contract` assembles these into the drain's contract.
-/

set_option autoImplicit false

namespace Capnp.Async

open Io

/-- The error `async_read_all` raises when the stream ends before the buffer is full. -/
def prematureEof : Io.Error := ⟨.other, "Premature EOF"⟩

/-- `async_read_all`: reads from `read` into `buf` until `buf` is full or a read would block, and
returns the number of bytes read, with `buf` after the reads. A read of zero bytes while `buf` is
not full is a premature end of stream, an `Interrupted` read is retried, and any other error is
passed on. -/
def asyncReadAll (read : Script) (buf : List UInt8) :
    Except Io.Error (Nat × List UInt8) × Script :=
  loop read buf 0
where
  /-- The `while idx < buf.len()` loop, with `idx` bytes read so far. -/
  loop (read : Script) (buf : List UInt8) (idx : Nat) :
      Except Io.Error (Nat × List UInt8) × Script :=
    if idx < buf.length then
      match h : read.read (buf.length - idx) with
      | (.ok [], read) => (.error prematureEof, read)
      | (.ok (b :: bs), read) => loop read (writeAt buf idx (b :: bs)) (idx + (b :: bs).length)
      | (.error e, read) =>
        if e.kind = .wouldBlock then (.ok (idx, buf), read)
        else if e.kind = .interrupted then loop read buf idx
        else (.error e, read)
    else (.ok (idx, buf), read)
  termination_by read.weight
  decreasing_by
    · exact Script.weight_read_lt_of_ok h
    · exact Script.weight_read_lt_of_error h

namespace asyncReadAll

variable {buf : List UInt8} {idx : Nat}

/-! ## One pass of the loop -/

/-- One pass of the loop while the buffer is not full, with the read's answer as a plain
`match`. -/
theorem loop_step (read : Script) (h : idx < buf.length) :
    loop read buf idx =
      match read.read (buf.length - idx) with
      | (.ok [], read) => (.error prematureEof, read)
      | (.ok (b :: bs), read) => loop read (writeAt buf idx (b :: bs)) (idx + (b :: bs).length)
      | (.error e, read) =>
        if e.kind = .wouldBlock then (.ok (idx, buf), read)
        else if e.kind = .interrupted then loop read buf idx
        else (.error e, read) := by
  rw [loop, if_pos h]
  split <;> simp_all

theorem loop_of_le (read : Script) (h : buf.length ≤ idx) :
    loop read buf idx = (.ok (idx, buf), read) := by
  rw [loop, if_neg (by omega)]

theorem loop_nil (h : idx < buf.length) : loop [] buf idx = (.error prematureEof, []) := by
  rw [loop_step _ h]
  rfl

theorem loop_data_nil (t : Script) (h : idx < buf.length) :
    loop (.data [] :: t) buf idx = (.error prematureEof, t) := by
  rw [loop_step _ h]
  simp [Script.read]

theorem loop_wouldBlock (e : Io.Error) (t : Script) (h : idx < buf.length)
    (he : e.kind = .wouldBlock) : loop (.fail e :: t) buf idx = (.ok (idx, buf), t) := by
  rw [loop_step _ h]
  simp [Script.read, he]

theorem loop_fail (e : Io.Error) (t : Script) (h : idx < buf.length)
    (hb : e.kind ≠ .wouldBlock) (hi : e.kind ≠ .interrupted) :
    loop (.fail e :: t) buf idx = (.error e, t) := by
  rw [loop_step _ h]
  simp [Script.read, hb, hi]

/-! ## Draining a flowing prefix -/

/-- A flowing prefix too short to fill the buffer is read whole, `Interrupted` answers included. -/
theorem loop_flows_short {p : Script} (hp : p.Flows) (t : Script)
    (h : idx + p.bytes.length < buf.length) :
    loop (p ++ t) buf idx = loop t (writeAt buf idx p.bytes) (idx + p.bytes.length) := by
  induction p generalizing buf idx with
  | nil => simp
  | cons ev p ih =>
    rw [Script.flows_cons] at hp
    rw [List.cons_append, loop_step _ (by cases ev <;> simp at h ⊢ <;> omega)]
    match ev, hp.1 with
    | .data (x :: xs), _ =>
      simp only [Script.bytes_data, List.length_append] at h
      have hx : (x :: xs).length ≤ buf.length - idx := by omega
      simp only [Script.read, if_pos hx]
      rw [ih hp.2 (by rw [length_writeAt]; omega), writeAt_append]
      simp only [Script.bytes_data, List.length_append, Nat.add_assoc]
    | .fail e, he =>
      have hk : e.kind = .interrupted := by simpa [Event.flows] using he
      simp only [Script.read, hk, reduceCtorEq, if_false, if_true]
      exact ih hp.2 h

/-- A flowing prefix with enough bytes fills the buffer; the reads stop at the byte that fills
it, so the rest of the script is untouched. -/
theorem loop_flows_full {p : Script} (hp : p.Flows) (t : Script) (hidx : idx ≤ buf.length)
    (h : buf.length - idx ≤ p.bytes.length) :
    loop (p ++ t) buf idx =
      (.ok (buf.length, writeAt buf idx p.bytes), p.skip (buf.length - idx) ++ t) := by
  induction p generalizing buf idx with
  | nil =>
    obtain rfl : idx = buf.length := by simp at h; omega
    simp [loop_of_le]
  | cons ev p ih =>
    rw [Script.flows_cons] at hp
    rcases Nat.eq_or_lt_of_le hidx with rfl | hlt
    · rw [loop_of_le _ le_rfl, writeAt_of_le _ _ _ le_rfl, Nat.sub_self, Script.skip_zero]
    obtain ⟨n, hn⟩ : ∃ n, buf.length - idx = n + 1 := ⟨buf.length - idx - 1, by omega⟩
    rw [List.cons_append, loop_step _ hlt, hn]
    match ev, hp.1 with
    | .data (x :: xs), _ =>
      have hlen : (x :: xs).length = xs.length + 1 := rfl
      simp only [Script.bytes_data, List.length_append] at h
      by_cases hx : (x :: xs).length ≤ n + 1
      · simp only [Script.read, if_pos hx]
        rw [ih hp.2 (by simp; omega) (by simp; omega), writeAt_append]
        simp only [Script.skip, if_pos hx, Script.bytes_data, length_writeAt]
        rw [show buf.length - (idx + (x :: xs).length) = n + 1 - (x :: xs).length by omega]
      · simp only [Script.read, if_neg hx, List.take_succ_cons]
        rw [loop_of_le _ (by simp; omega), ← writeAt_take buf idx (Script.bytes _), hn,
          Script.bytes_data, List.take_append_of_le_length (by omega)]
        simp only [Script.skip, if_neg hx, List.take_succ_cons, List.cons_append]
        congr 3
        simp only [List.length_cons, List.length_take]
        omega
    | .fail e, he =>
      have hk : e.kind = .interrupted := by simpa [Event.flows] using he
      simp only [Script.read, hk, reduceCtorEq, if_false, if_true]
      rw [ih hp.2 hidx (by simpa using h), hn]
      rfl

end asyncReadAll

open asyncReadAll

/-- Every `Ok` of the drain: the script is a flowing prefix `p` and a rest `t`, and `p` is
written to the front of `buf`. Either `p` holds enough bytes, and the reads stop at the byte that
fills `buf`, or it does not, and `t` starts with the `WouldBlock` the drain stopped at. -/
theorem asyncReadAll_eq_ok {read : Script} {buf : List UInt8} {k : Nat} {buf' : List UInt8}
    {read' : Script} (h : asyncReadAll read buf = (.ok (k, buf'), read')) :
    ∃ p t, p.Flows ∧ read = p ++ t ∧ buf' = writeAt buf 0 p.bytes ∧
      ((buf.length ≤ p.bytes.length ∧ k = buf.length ∧ read' = p.skip buf.length ++ t) ∨
        (p.bytes.length < buf.length ∧ k = p.bytes.length ∧
          ∃ e, e.kind = .wouldBlock ∧ t = .fail e :: read')) := by
  obtain ⟨p, t, hp, rfl, ht⟩ := Script.exists_flows_prefix read
  refine ⟨p, t, hp, rfl, ?_⟩
  by_cases hfull : buf.length ≤ p.bytes.length
  · rw [asyncReadAll, loop_flows_full hp t (Nat.zero_le _) (by omega)] at h
    simp only [Prod.mk.injEq, Except.ok.injEq] at h
    obtain ⟨⟨rfl, rfl⟩, rfl⟩ := h
    exact ⟨rfl, .inl ⟨hfull, rfl, rfl⟩⟩
  · rw [asyncReadAll, loop_flows_short hp t (by omega), Nat.zero_add] at h
    rcases ht with rfl | ⟨ev, t', rfl, hev⟩
    · rw [loop_nil (by simp; omega)] at h
      cases h
    match ev, hev with
    | .data [], _ => rw [loop_data_nil _ (by simp; omega)] at h; cases h
    | .fail e, hev =>
      by_cases hb : e.kind = .wouldBlock
      · rw [loop_wouldBlock _ _ (by simp; omega) hb] at h
        simp only [Prod.mk.injEq, Except.ok.injEq] at h
        obtain ⟨⟨rfl, rfl⟩, rfl⟩ := h
        exact ⟨rfl, .inr ⟨by omega, rfl, e, hb, rfl⟩⟩
      · have hi : e.kind ≠ .interrupted := by simpa [Event.flows] using hev
        rw [loop_fail _ _ (by simp; omega) hb hi] at h
        cases h

/-- What an `Ok (k, buf')` answer of the drain says: `k ≤ buf.len()`, `buf'` holds the next `k`
bytes of the stream in front of the unchanged rest of `buf`, exactly those bytes are consumed,
and `k` falls short of `buf.len()` only right after a `WouldBlock` answer. -/
theorem asyncReadAll_ok {read : Script} {buf : List UInt8} {k : Nat} {buf' : List UInt8}
    {read' : Script} (h : asyncReadAll read buf = (.ok (k, buf'), read')) :
    k ≤ buf.length ∧ buf'.length = buf.length ∧ buf'.drop k = buf.drop k ∧
      read.bytes = buf'.take k ++ read'.bytes ∧
      (k < buf.length →
        ∃ pre e, pre.Flows ∧ e.kind = .wouldBlock ∧ read = pre ++ .fail e :: read') := by
  obtain ⟨p, t, hp, rfl, rfl, hcase⟩ := asyncReadAll_eq_ok h
  rcases hcase with ⟨hfull, rfl, rfl⟩ | ⟨hshort, rfl, e, he, rfl⟩
  · have hw : writeAt buf 0 p.bytes = p.bytes.take buf.length ++ buf.drop buf.length := by
      rw [← writeAt_take, Nat.sub_zero, writeAt_eq _ _ _ (by simp [Nat.min_le_left])]
      simp [Nat.min_eq_left hfull]
    refine ⟨le_rfl, by simp, by simp, ?_, fun h => absurd h (lt_irrefl _)⟩
    rw [Script.bytes_append, Script.bytes_append, Script.bytes_skip, hw,
      List.take_append_of_le_length (by simp; omega), List.take_take, Nat.min_self,
      ← List.append_assoc, List.take_append_drop]
  · have hw : writeAt buf 0 p.bytes = p.bytes ++ buf.drop p.bytes.length :=
      by rw [writeAt_eq _ _ _ (by omega)]; simp
    exact ⟨by omega, by simp, by simp [hw], by simp [hw], fun _ => ⟨p, e, hp, he, rfl⟩⟩

/-- Every error of the drain: the stream ended before `buf` was full, or it answered an error
other than `WouldBlock` and `Interrupted` after a flowing prefix, and the drain passes it on. -/
theorem asyncReadAll_eq_error {read : Script} {buf : List UInt8} {e : Io.Error} {read' : Script}
    (h : asyncReadAll read buf = (.error e, read')) :
    e = prematureEof ∨
      ∃ pre, pre.Flows ∧ e.kind ≠ .wouldBlock ∧ e.kind ≠ .interrupted ∧
        read = pre ++ .fail e :: read' := by
  obtain ⟨p, t, hp, rfl, ht⟩ := Script.exists_flows_prefix read
  by_cases hfull : buf.length ≤ p.bytes.length
  · rw [asyncReadAll, loop_flows_full hp t (Nat.zero_le _) (by omega)] at h
    cases h
  rw [asyncReadAll, loop_flows_short hp t (by omega), Nat.zero_add] at h
  rcases ht with rfl | ⟨ev, t', rfl, hev⟩
  · rw [loop_nil (by simp; omega)] at h
    cases h
    exact .inl rfl
  match ev, hev with
  | .data [], _ =>
    rw [loop_data_nil _ (by simp; omega)] at h
    cases h
    exact .inl rfl
  | .fail e', hev =>
    have hi : e'.kind ≠ .interrupted := by simpa [Event.flows] using hev
    by_cases hb : e'.kind = .wouldBlock
    · rw [loop_wouldBlock _ _ (by simp; omega) hb] at h
      cases h
    · rw [loop_fail _ _ (by simp; omega) hb hi] at h
      cases h
      exact .inr ⟨p, hp, hb, hi, rfl⟩

/-- The drain's contract. When it returns `Ok (k, buf')`: `k ≤ buf.len()`, the first `k` bytes of
`buf'` are the next `k` bytes of the stream and exactly those are consumed, the rest of `buf` is
unchanged, and `k` falls short of `buf.len()` only right after a `WouldBlock` answer, the answers
before it being chunks and `Interrupted` errors. It does return `Ok`: with `buf.len()` when the
chunks before the first answer that stops a reader hold enough bytes, and with their count when
that answer is a `WouldBlock`. When the stream ends (the script runs out, or a read returns zero
bytes) before `buf` is full, it returns the premature end of stream; when the stream answers
another error before `buf` is full, it returns that error unchanged. -/
theorem asyncReadAll_contract (buf : List UInt8) :
    (∀ (read : Script) k buf' read', asyncReadAll read buf = (.ok (k, buf'), read') →
      k ≤ buf.length ∧ buf'.length = buf.length ∧ buf'.drop k = buf.drop k ∧
      read.bytes = buf'.take k ++ read'.bytes ∧
      (k < buf.length →
        ∃ pre e, pre.Flows ∧ e.kind = .wouldBlock ∧ read = pre ++ .fail e :: read')) ∧
    (∀ pre t : Script, pre.Flows → buf.length ≤ pre.bytes.length →
      asyncReadAll (pre ++ t) buf =
        (.ok (buf.length, writeAt buf 0 pre.bytes), pre.skip buf.length ++ t)) ∧
    (∀ (pre : Script) (e : Io.Error) t, pre.Flows → pre.bytes.length < buf.length →
      e.kind = .wouldBlock →
      asyncReadAll (pre ++ .fail e :: t) buf =
        (.ok (pre.bytes.length, writeAt buf 0 pre.bytes), t)) ∧
    (∀ pre t : Script, pre.Flows → pre.bytes.length < buf.length →
      (t = [] ∨ ∃ t', t = .data [] :: t') →
      (asyncReadAll (pre ++ t) buf).1 = .error prematureEof) ∧
    (∀ (pre : Script) (e : Io.Error) t, pre.Flows → pre.bytes.length < buf.length →
      e.kind ≠ .wouldBlock → e.kind ≠ .interrupted →
      asyncReadAll (pre ++ .fail e :: t) buf = (.error e, t)) := by
  refine ⟨fun _ _ _ _ h => asyncReadAll_ok h, fun pre t hp hle => ?_,
    fun pre e t hp hlt he => ?_, fun pre t hp hlt ht => ?_, fun pre e t hp hlt hb hi => ?_⟩
  · rw [asyncReadAll, loop_flows_full hp t (Nat.zero_le _) (by omega), Nat.sub_zero]
  · rw [asyncReadAll, loop_flows_short hp _ (by omega), loop_wouldBlock _ _ (by simp; omega) he,
      Nat.zero_add]
  · rw [asyncReadAll, loop_flows_short hp t (by omega)]
    rcases ht with rfl | ⟨t', rfl⟩
    · rw [loop_nil (by simp; omega)]
    · rw [loop_data_nil _ (by simp; omega)]
  · rw [asyncReadAll, loop_flows_short hp _ (by omega), loop_fail _ _ (by simp; omega) hb hi]

/-- The contract on a buffer of two bytes: one byte and then `WouldBlock` fills one byte and says
so, a chunk of three bytes fills the buffer and leaves one byte, and one byte followed by the end
of the stream, or by a reset connection, is an error. -/
theorem asyncReadAll_contract_two_bytes :
    (1 ≤ ([0, 0] : List UInt8).length ∧
      ([7, 0] : List UInt8).length = ([0, 0] : List UInt8).length ∧
      ([7, 0] : List UInt8).drop 1 = ([0, 0] : List UInt8).drop 1 ∧
      Script.bytes [.data [7], .fail ⟨.wouldBlock, "later"⟩] = [7, 0].take 1 ++ Script.bytes [] ∧
      (1 < ([0, 0] : List UInt8).length → ∃ pre e, Script.Flows pre ∧ e.kind = .wouldBlock ∧
        [.data [7], .fail ⟨.wouldBlock, "later"⟩] = pre ++ .fail e :: [])) ∧
    asyncReadAll [.data [7, 8, 9]] [0, 0] = (.ok (2, [7, 8]), [.data [9]]) ∧
    asyncReadAll [.data [7], .fail ⟨.wouldBlock, "later"⟩] [0, 0] = (.ok (1, [7, 0]), []) ∧
    (asyncReadAll [.data [7]] [0, 0]).1 = .error prematureEof ∧
    asyncReadAll [.data [7], .fail ⟨.connectionReset, "reset"⟩] [0, 0] =
      (.error ⟨.connectionReset, "reset"⟩, []) :=
  have hone : Script.Flows [.data [7]] := by simp [Event.flows]
  have hblock :
      asyncReadAll [.data [7], .fail ⟨.wouldBlock, "later"⟩] [0, 0] = (.ok (1, [7, 0]), []) :=
    (asyncReadAll_contract [0, 0]).2.2.1 [.data [7]] ⟨.wouldBlock, "later"⟩ [] hone (by decide) rfl
  ⟨(asyncReadAll_contract [0, 0]).1 _ _ _ _ hblock,
    (asyncReadAll_contract [0, 0]).2.1 [.data [7, 8, 9]] [] (by simp [Event.flows]) (by decide),
    hblock, (asyncReadAll_contract [0, 0]).2.2.2.1 [.data [7]] [] hone (by decide) (.inl rfl),
    (asyncReadAll_contract [0, 0]).2.2.2.2 [.data [7]] ⟨.connectionReset, "reset"⟩ [] hone
      (by decide) (by decide) (by decide)⟩

end Capnp.Async
