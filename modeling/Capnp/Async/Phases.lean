import Capnp.Async.Read

/-!
# The shared read of the phases

Every phase function starts with `idx += try!(async_read_all(read, &mut buf[idx..]))`,
modelled by `readInto`. This module says once what that line does, so that the proofs about
the phases never unfold the drain:

- `readInto_full`: a flowing prefix that reaches the end of `buf` fills it, and the stream is
  left right after the bytes that fit;
- `readInto_wouldBlock`: a `WouldBlock` before `buf` is full stops the read there;
- `readInto_end`, `readInto_data_nil`, `readInto_fail`: the end of the stream, a zero-byte read
  or another error before `buf` is full is an error;
- `readInto_eq_ok`: whatever the stream, what an `Ok` can be, and from it `readInto_ok_bounds`,
  `readInto_ok_short`, `readInto_ok_full`, `readInto_consumed` (the bytes consumed are the bytes
  written) and `readInto_remains`;
- `readInto_oneChunk_append`: on a stream that has everything ready, reading a prefix first
  and the rest later is the same as reading all of it at once.
-/

set_option autoImplicit false

namespace Capnp.Async

open Io asyncReadAll

variable {buf : List UInt8} {idx : Nat}

theorem readInto_of_lt (read : Script) (h : buf.length < idx) :
    readInto read buf idx = .panic .outOfBounds := by
  rw [readInto, if_pos h]

theorem readInto_full {p : Script} (hp : p.Flows) (t : Script) (hidx : idx ≤ buf.length)
    (h : buf.length - idx ≤ p.bytes.length) :
    readInto (p ++ t) buf idx =
      .ret (.ok (writeAt buf idx p.bytes, buf.length)) (p.skip (buf.length - idx) ++ t) := by
  rw [readInto, if_neg (by omega), asyncReadAll,
    loop_flows_full hp t (Nat.zero_le _) (by simp only [List.length_drop]; omega)]
  simp only [List.length_drop, Nat.sub_zero, writeAt_writeAt_drop, Nat.add_sub_cancel' hidx]

/-- The read before a `WouldBlock`, when it leaves `buf` short. -/
theorem readInto_short {p : Script} (hp : p.Flows) (t : Script)
    (h : idx + p.bytes.length < buf.length) :
    asyncReadAll (p ++ t) (buf.drop idx) =
      loop t (writeAt (buf.drop idx) 0 p.bytes) p.bytes.length := by
  rw [asyncReadAll, loop_flows_short hp t (by simp only [List.length_drop]; omega), Nat.zero_add]

theorem readInto_wouldBlock {p : Script} (hp : p.Flows) {e : Io.Error} (he : e.kind = .wouldBlock)
    (t : Script) (h : idx + p.bytes.length < buf.length) :
    readInto (p ++ .fail e :: t) buf idx =
      .ret (.ok (writeAt buf idx p.bytes, idx + p.bytes.length)) t := by
  rw [readInto, if_neg (by omega), readInto_short hp _ h,
    loop_wouldBlock _ _ (by simp only [length_writeAt, List.length_drop]; omega) he]
  simp only [writeAt_writeAt_drop]

theorem readInto_end {p : Script} (hp : p.Flows) (h : idx + p.bytes.length < buf.length) :
    readInto p buf idx = .ret (.err (.io prematureEof)) [] := by
  have hq := readInto_short hp [] h
  rw [List.append_nil] at hq
  rw [readInto, if_neg (by omega), hq,
    loop_nil (by simp only [length_writeAt, List.length_drop]; omega)]

theorem readInto_data_nil {p : Script} (hp : p.Flows) (t : Script)
    (h : idx + p.bytes.length < buf.length) :
    readInto (p ++ .data [] :: t) buf idx = .ret (.err (.io prematureEof)) t := by
  rw [readInto, if_neg (by omega), readInto_short hp _ h,
    loop_data_nil _ (by simp only [length_writeAt, List.length_drop]; omega)]

theorem readInto_fail {p : Script} (hp : p.Flows) {e : Io.Error} (hb : e.kind ≠ .wouldBlock)
    (hi : e.kind ≠ .interrupted) (t : Script) (h : idx + p.bytes.length < buf.length) :
    readInto (p ++ .fail e :: t) buf idx = .ret (.err (.io e)) t := by
  rw [readInto, if_neg (by omega), readInto_short hp _ h,
    loop_fail _ _ (by simp only [length_writeAt, List.length_drop]; omega) hb hi]

/-- From a position inside `buf`, `readInto` does not panic, whatever the stream. -/
theorem readInto_ne_panic (read : Script) (h : idx ≤ buf.length) (p : Panic) :
    readInto read buf idx ≠ .panic p := by
  rw [readInto, if_neg (by omega)]
  split <;> simp

/-- Every `Ok` of `readInto`: the stream is a flowing prefix `p` and a rest `t`, and `p` is
written into `buf` from `idx` on. Either `p` fills `buf`, and the reads stop at the byte that
fills it, or it does not, and `t` starts with the `WouldBlock` the read stopped at. -/
theorem readInto_eq_ok {read : Script} {buf' : List UInt8} {idx' : Nat} {read' : Script}
    (h : readInto read buf idx = .ret (.ok (buf', idx')) read') :
    ∃ p t, p.Flows ∧ read = p ++ t ∧ buf' = writeAt buf idx p.bytes ∧
      ((buf.length ≤ idx + p.bytes.length ∧ idx' = buf.length ∧
          read' = p.skip (buf.length - idx) ++ t) ∨
        (idx + p.bytes.length < buf.length ∧ idx' = idx + p.bytes.length ∧
          ∃ e, e.kind = .wouldBlock ∧ t = .fail e :: read')) := by
  unfold readInto at h
  split at h
  · cases h
  split at h
  case h_2 => cases h
  case h_1 k filled r hr =>
    simp only [Outcome.ret.injEq, Result.ok.injEq, Prod.mk.injEq] at h
    obtain ⟨⟨rfl, rfl⟩, rfl⟩ := h
    obtain ⟨p, t, hp, rfl, rfl, hcase⟩ := asyncReadAll_eq_ok hr
    simp only [List.length_drop] at hcase
    refine ⟨p, t, hp, rfl, writeAt_writeAt_drop _ _ _, ?_⟩
    rcases hcase with ⟨hfull, rfl, rfl⟩ | ⟨hshort, rfl, hblock⟩
    · exact .inl ⟨by omega, by omega, rfl⟩
    · exact .inr ⟨by omega, rfl, hblock⟩

/-- An `Ok` of `readInto` keeps the buffer's length and stops inside it. -/
theorem readInto_ok_bounds {read : Script} {buf' : List UInt8} {idx' : Nat} {read' : Script}
    (h : readInto read buf idx = .ret (.ok (buf', idx')) read') :
    buf'.length = buf.length ∧ idx' ≤ buf.length := by
  obtain ⟨p, t, -, -, rfl, hcase⟩ := readInto_eq_ok h
  refine ⟨length_writeAt _ _ _, ?_⟩
  rcases hcase with ⟨-, rfl, -⟩ | ⟨hshort, rfl, -⟩ <;> omega

/-- An `Err` of `readInto` is the stream's I/O error. -/
theorem readInto_eq_err {read : Script} {e : Error} {read' : Script}
    (h : readInto read buf idx = .ret (.err e) read') : ∃ ioe, e = .io ioe := by
  unfold readInto at h
  split_ifs at h
  split at h
  · cases h
  · cases h
    exact ⟨_, rfl⟩

/-- An `Ok` of `readInto` that leaves `buf` short stopped at a `WouldBlock`, after a flowing
prefix. -/
theorem readInto_ok_short {read : Script} {buf' : List UInt8} {idx' : Nat} {read' : Script}
    (h : readInto read buf idx = .ret (.ok (buf', idx')) read') (hshort : idx' < buf.length) :
    ∃ pre e, pre.Flows ∧ e.kind = .wouldBlock ∧ read = pre ++ .fail e :: read' := by
  obtain ⟨p, t, hp, rfl, -, hcase⟩ := readInto_eq_ok h
  rcases hcase with ⟨-, rfl, -⟩ | ⟨-, -, e, he, rfl⟩
  · omega
  · exact ⟨p, e, hp, he, rfl⟩

/-- An `Ok` of `readInto` from the start of `buf` that fills it: `buf'` is the next bytes of the
stream, exactly those are consumed, and what is left is the rest of the flowing prefix. -/
theorem readInto_ok_full {read : Script} {buf : List UInt8} {buf' : List UInt8} {idx' : Nat}
    {read' : Script} (h : readInto read buf 0 = .ret (.ok (buf', idx')) read')
    (hfull : buf.length ≤ idx') :
    buf'.length = buf.length ∧ read.bytes = buf' ++ read'.bytes ∧ read.Remains read' := by
  obtain ⟨p, t, hp, rfl, rfl, hcase⟩ := readInto_eq_ok h
  rcases hcase with ⟨hle, -, rfl⟩ | ⟨hshort, rfl, -⟩
  · have hw : writeAt buf 0 p.bytes = p.bytes.take buf.length := by
      rw [← writeAt_take, Nat.sub_zero, writeAt_zero_of_length _ _ (by simp; omega)]
    refine ⟨length_writeAt _ _ _, ?_, ⟨p, t, _, hp, rfl, rfl, by omega⟩⟩
    rw [hw, Script.bytes_append, Script.bytes_append, Script.bytes_skip, Nat.sub_zero,
      ← List.append_assoc, List.take_append_drop]
  · omega

/-- An `Ok` of `readInto` consumed some bytes `q` and wrote them into `buf` at `idx`. -/
theorem readInto_consumed {read : Script} {buf' : List UInt8} {idx' : Nat} {read' : Script}
    (h : readInto read buf idx = .ret (.ok (buf', idx')) read') :
    ∃ q, read.bytes = q ++ read'.bytes ∧ buf' = writeAt buf idx q ∧ idx' = idx + q.length ∧
      idx' ≤ buf.length := by
  have hidx : idx ≤ buf.length := by
    by_contra hlt
    rw [readInto, if_pos (by omega)] at h
    cases h
  obtain ⟨p, t, -, rfl, rfl, hcase⟩ := readInto_eq_ok h
  rcases hcase with ⟨hle, rfl, rfl⟩ | ⟨hshort, rfl, e, -, rfl⟩
  · refine ⟨p.bytes.take (buf.length - idx), ?_, (writeAt_take _ _ _).symm, ?_, le_rfl⟩
    · rw [Script.bytes_append, Script.bytes_append, Script.bytes_skip, ← List.append_assoc,
        List.take_append_drop]
    · rw [List.length_take]; omega
  · exact ⟨p.bytes, by simp, rfl, rfl, by omega⟩

/-- An `Ok` of `readInto` that fills `buf` read on through a flowing prefix. -/
theorem readInto_remains {read : Script} {buf' : List UInt8} {idx' : Nat} {read' : Script}
    (h : readInto read buf idx = .ret (.ok (buf', idx')) read') (hfull : buf.length ≤ idx') :
    read.Remains read' := by
  obtain ⟨p, t, hp, rfl, -, ⟨hle, -, rfl⟩ | ⟨hshort, rfl, -⟩⟩ := readInto_eq_ok h
  · exact ⟨p, t, _, hp, rfl, rfl, by omega⟩
  · omega

/-! ## On a stream that has everything ready -/

theorem readInto_oneChunk_full (s : List UInt8) (hidx : idx ≤ buf.length)
    (h : buf.length - idx ≤ s.length) :
    readInto (Script.oneChunk s) buf idx =
      .ret (.ok (writeAt buf idx s, buf.length)) (Script.oneChunk (s.drop (buf.length - idx))) := by
  have hq : readInto (Script.oneChunk s ++ []) buf idx = _ :=
    readInto_full (Script.flows_oneChunk s) [] hidx (by simpa using h)
  simpa only [List.append_nil, Script.bytes_oneChunk, Script.skip_oneChunk] using hq

theorem readInto_oneChunk_end (s : List UInt8) (h : idx + s.length < buf.length) :
    readInto (Script.oneChunk s) buf idx = .ret (.err (.io prematureEof)) [] :=
  readInto_end (Script.flows_oneChunk s) (by simpa using h)

/-- `readInto` on a stream that has all of `a ++ s` ready: when `a` leaves `buf` short, the
read goes on from where `a` ends. -/
theorem readInto_oneChunk_append (a s : List UInt8) (h : idx + a.length < buf.length) :
    readInto (Script.oneChunk (a ++ s)) buf idx =
      readInto (Script.oneChunk s) (writeAt buf idx a) (idx + a.length) := by
  have hlen : (writeAt buf idx a).length = buf.length := length_writeAt _ _ _
  by_cases hs : idx + a.length + s.length < buf.length
  · rw [readInto_oneChunk_end _ (by simp; omega), readInto_oneChunk_end _ (by omega)]
  · rw [readInto_oneChunk_full _ (by omega) (by simp; omega),
      readInto_oneChunk_full _ (by omega) (by omega), hlen, writeAt_append,
      List.drop_append_eq_append_drop, List.drop_eq_nil_of_le (by omega), List.nil_append,
      Nat.sub_sub]

/-! ## What each phase does after its read -/

theorem readSegmentTableFirst_finish_eq_ok {b : List UInt8} {i : Nat} {read read' : Script}
    {v : AsyncValue (Nat × Nat) ReadContinuation}
    (h : readSegmentTableFirst.finish (b, i) read = .ret (.ok v) read') :
    read' = read ∧ ((i < b.length ∧ v = .continue (.segmentTableFirst b i)) ∨
      (b.length ≤ i ∧ 1 ≤ (readU32 b + 1) % 2 ^ 32 ∧ (readU32 b + 1) % 2 ^ 32 ≤ 511 ∧
        v = .complete ((readU32 b + 1) % 2 ^ 32, readU32 (b.drop 4)))) := by
  simp only [readSegmentTableFirst.finish] at h
  split at h
  · cases h
    exact ⟨rfl, .inl ⟨by assumption, rfl⟩⟩
  split at h
  · cases h
  split at h
  · cases h
  · cases h
    exact ⟨rfl, .inr ⟨by omega, by omega, by omega, rfl⟩⟩

theorem readSegmentTableRest_finish_eq_ok {options : ReaderOptions}
    {segmentCount firstSegmentLen : Nat} {b : List UInt8} {i : Nat} {read read' : Script}
    {v : AsyncValue (Nat × List (Nat × Nat)) ReadContinuation}
    (h : readSegmentTableRest.finish options segmentCount firstSegmentLen (b, i) read =
      .ret (.ok v) read') :
    read' = read ∧
      ((i < b.length ∧ v = .continue (.segmentTableRest segmentCount firstSegmentLen b i)) ∨
        (b.length ≤ i ∧ ∃ totalWords segmentSlices,
          pushSegmentSlices ((chunks4 b).take (segmentCount - 1))
            (firstSegmentLen, [(0, firstSegmentLen)]) = .ok (totalWords, segmentSlices) ∧
          totalWords ≤ options.traversalLimitInWords.toNat ∧
          v = .complete (totalWords, segmentSlices))) := by
  rw [readSegmentTableRest.finish] at h
  split at h
  · cases h
    exact ⟨rfl, .inl ⟨by assumption, rfl⟩⟩
  split at h
  · cases h
  split at h
  · cases h
  rename_i hfull _ totalWords segmentSlices hpush
  split at h
  · cases h
  · cases h
    exact ⟨rfl, .inr ⟨by omega, totalWords, segmentSlices, hpush, by omega, rfl⟩⟩

theorem readSegments_finish_eq_ok {options : ReaderOptions} {segmentSlices : List (Nat × Nat)}
    {b : List UInt8} {i : Nat} {read read' : Script} {v : AsyncRead}
    (h : readSegments.finish options segmentSlices (b, i) read = .ret (.ok v) read') :
    read' = read ∧
      ((i < b.length / 8 * 8 ∧ v = .continue (.segments segmentSlices (Word.bytesToWords b) i)) ∨
        (b.length / 8 * 8 ≤ i ∧ ∃ segments,
          segmentSlices.mapM (wordSlice (Word.bytesToWords b)) = .ok segments ∧
          v = .complete ⟨options, ⟨segments, options⟩, segmentSlices, Word.bytesToWords b⟩)) := by
  simp only [readSegments.finish, Word.length_bytesToWords] at h
  split at h
  · cases h
  split at h
  · cases h
    exact ⟨rfl, .inl ⟨by assumption, rfl⟩⟩
  split at h
  · cases h
  · rename_i hfull _ segments hm
    cases h
    exact ⟨rfl, .inr ⟨by omega, segments, hm, rfl⟩⟩

/-- `read_segments` fails only with the stream's I/O error. -/
theorem readSegments_eq_err {read : Script} {options : ReaderOptions}
    {segmentSlices : List (Nat × Nat)} {ownedSpace : List Word} {e : Error} {read' : Script}
    (h : readSegments read options segmentSlices ownedSpace idx = .ret (.err e) read') :
    ∃ ioe, e = .io ioe := by
  rw [readSegments] at h
  rcases hr : readInto read (Word.wordsToBytes ownedSpace) idx with ⟨⟨b, i⟩ | e', read₁⟩ | p
  · rw [hr, Outcome.bind_ok] at h
    simp only [readSegments.finish] at h
    split at h
    · cases h
    split at h
    · cases h
    split at h <;> cases h
  · rw [hr, Outcome.bind_err] at h
    cases h
    exact readInto_eq_err hr
  · rw [hr, Outcome.bind_panic] at h
    cases h

end Capnp.Async
