import Capnp.Async.Message

/-!
# The traversal limit over a whole read

`read_segment_table_rest` refuses a table whose segments hold more words than
`options.traversal_limit_in_words`, so that a sender cannot make the receiver allocate without
bound; `read_message` then allocates the owned space for the table's total. A table of one
segment does not go through that check: its owned space is bounded only by the table's `u32`
length. `AllocationBounded` says exactly this of an owned space.

A caller may suspend and resume the read any number of times, on any streams.
`ReachableWith options` is every continuation it can hold when it passes the same `options` to
`read_message` and to every resumption. The main theorem, `reachableWith_withinLimit`, says that
every such continuation, and every message that `read_message` or the resumption of such a
continuation completes, holds an owned space that `AllocationBounded` allows. `Bounded` says it
of one outcome; one lemma per phase proves it (`bounded_readSegments`,
`bounded_readMessageTable`, `bounded_resume`).
-/

set_option autoImplicit false

namespace Capnp.Async

open Io

/-- An owned space of `words` words for a message of `segmentSlices` fits the traversal limit of
`options`, or the table has one segment, whose `u32` length is all that bounds it. -/
def AllocationBounded (options : ReaderOptions) (segmentSlices : List (Nat × Nat)) (words : Nat) :
    Prop :=
  words ≤ options.traversalLimitInWords.toNat ∨ (segmentSlices.length = 1 ∧ words < 2 ^ 32)

/-- A continuation of the segments phase holds an owned space that `AllocationBounded` allows;
the others hold none. -/
def ReadContinuation.WithinLimit (options : ReaderOptions) : ReadContinuation → Prop
  | .segments segmentSlices ownedSpace _ =>
    AllocationBounded options segmentSlices ownedSpace.length
  | _ => True

/-- An outcome whose continuation, or finished message, is within the limit. -/
def Bounded (options : ReaderOptions) : Outcome AsyncRead → Prop
  | .ret (.ok (.continue k)) _ => k.WithinLimit options
  | .ret (.ok (.complete msg)) _ =>
    AllocationBounded options msg.segmentSlices msg.ownedSpace.length
  | _ => True

/-- The continuations a caller can hold when it passes `options` to `read_message` and to every
resumption, on any streams. -/
inductive ReachableWith (options : ReaderOptions) : ReadContinuation → Prop where
  | readMessage {read read' : Script} {k : ReadContinuation} :
      readMessage read options = .ret (.ok (.continue k)) read' → ReachableWith options k
  | resume {read read' : Script} {k k' : ReadContinuation} :
      ReachableWith options k → resume read options k = .ret (.ok (.continue k')) read' →
        ReachableWith options k'

section Phases

variable {options : ReaderOptions} {read read' : Script}

/-- `try_async!` keeps the bound when the call's continuations and the rest of the caller do. -/
theorem bounded_tryAsync {α : Type} {x : Outcome (AsyncValue α ReadContinuation)}
    {k : α → Script → Outcome AsyncRead}
    (hx : ∀ c r, x = .ret (.ok (.continue c)) r → c.WithinLimit options)
    (hk : ∀ a r, x = .ret (.ok (.complete a)) r → Bounded options (k a r)) :
    Bounded options (tryAsync x k) := by
  rcases x with ((a | c) | _) | _
  · exact hk a _ rfl
  · exact hx c _ rfl
  all_goals trivial

/-- `read_segments` keeps the length of the owned space, so it keeps the bound. -/
theorem bounded_readSegments (segmentSlices : List (Nat × Nat)) (ownedSpace : List Word)
    (idx : Nat) (h : AllocationBounded options segmentSlices ownedSpace.length) :
    Bounded options (readSegments read options segmentSlices ownedSpace idx) := by
  rw [readSegments]
  rcases hr : readInto read (Word.wordsToBytes ownedSpace) idx with ⟨⟨b, i⟩ | e, read₁⟩ | p
  · have hw : (Word.bytesToWords b).length = ownedSpace.length := by
      simp [(readInto_ok_bounds hr).1]
    simp only [Outcome.bind_ok, readSegments.finish]
    split_ifs
    · trivial
    · show AllocationBounded options segmentSlices (Word.bytesToWords b).length
      rwa [hw]
    · split
      · trivial
      · show AllocationBounded options segmentSlices (Word.bytesToWords b).length
        rwa [hw]
  · trivial
  · trivial

theorem readSegmentTableFirst_continue_withinLimit {buf : List UInt8} {idx : Nat}
    {c : ReadContinuation}
    (h : readSegmentTableFirst read buf idx = .ret (.ok (.continue c)) read') :
    c.WithinLimit options := by
  rw [readSegmentTableFirst] at h
  obtain ⟨_, _, -, h2⟩ := Outcome.bind_eq_ok h
  obtain ⟨-, ⟨-, hv⟩ | ⟨-, -, -, hv⟩⟩ := readSegmentTableFirst_finish_eq_ok h2 <;> cases hv
  trivial

theorem readSegmentTableFirst_complete_lt {buf : List UInt8}
    {idx segmentCount firstSegmentLen : Nat}
    (h : readSegmentTableFirst read buf idx =
      .ret (.ok (.complete (segmentCount, firstSegmentLen))) read') :
    firstSegmentLen < 2 ^ 32 := by
  rw [readSegmentTableFirst] at h
  obtain ⟨_, _, -, h2⟩ := Outcome.bind_eq_ok h
  obtain ⟨-, ⟨-, hv⟩ | ⟨-, -, -, hv⟩⟩ := readSegmentTableFirst_finish_eq_ok h2 <;> cases hv
  exact readU32_lt _

theorem readSegmentTableRest_continue_withinLimit {segmentCount firstSegmentLen : Nat}
    {buf : List UInt8} {idx : Nat} {c : ReadContinuation}
    (h : readSegmentTableRest read options segmentCount firstSegmentLen buf idx =
      .ret (.ok (.continue c)) read') : c.WithinLimit options := by
  rw [readSegmentTableRest] at h
  obtain ⟨_, _, -, h2⟩ := Outcome.bind_eq_ok h
  obtain ⟨-, ⟨-, hv⟩ | ⟨-, _, _, -, -, hv⟩⟩ := readSegmentTableRest_finish_eq_ok h2 <;> cases hv
  trivial

/-- Whatever the position it resumes from, a completed table is within the limit. -/
theorem readSegmentTableRest_complete_le {segmentCount firstSegmentLen : Nat} {buf : List UInt8}
    {idx totalWords : Nat} {segmentSlices : List (Nat × Nat)}
    (h : readSegmentTableRest read options segmentCount firstSegmentLen buf idx =
      .ret (.ok (.complete (totalWords, segmentSlices))) read') :
    totalWords ≤ options.traversalLimitInWords.toNat := by
  rw [readSegmentTableRest] at h
  obtain ⟨_, _, -, h2⟩ := Outcome.bind_eq_ok h
  obtain ⟨-, ⟨-, hv⟩ | ⟨-, _, _, -, hlim, hv⟩⟩ := readSegmentTableRest_finish_eq_ok h2 <;> cases hv
  exact hlim

theorem bounded_readMessageSegments {totalWords : Nat} {segmentSlices : List (Nat × Nat)}
    (h : AllocationBounded options segmentSlices totalWords) :
    Bounded options (readMessageSegments options (totalWords, segmentSlices) read) :=
  bounded_readSegments _ _ 0 (by rwa [Word.length_allocateZeroedVec])

/-- After the first word, `read_message` allocates within the limit, or for one segment. -/
theorem bounded_readMessageTable {segmentCount firstSegmentLen : Nat}
    (hfirst : firstSegmentLen < 2 ^ 32) :
    Bounded options (readMessageTable options (segmentCount, firstSegmentLen) read) := by
  rw [readMessageTable]
  split_ifs
  · exact bounded_tryAsync (fun _ _ h => nomatch h) fun _ _ h => by
      cases h; exact bounded_readMessageSegments (.inr ⟨rfl, hfirst⟩)
  · split
    · exact bounded_tryAsync (fun _ _ h => nomatch h) fun _ _ h => nomatch h
    · exact bounded_tryAsync (fun _ _ h => readSegmentTableRest_continue_withinLimit h)
        fun _ _ h => bounded_readMessageSegments (.inl (readSegmentTableRest_complete_le h))

/-- Resuming a continuation within the limit gives an outcome within it. -/
theorem bounded_resume (read : Script) {k : ReadContinuation} (hk : k.WithinLimit options) :
    Bounded options (resume read options k) := by
  cases k with
  | segmentTableFirst buf idx =>
    exact bounded_tryAsync (fun _ _ h => readSegmentTableFirst_continue_withinLimit h)
      fun _ _ h => bounded_readMessageTable (readSegmentTableFirst_complete_lt h)
  | segmentTableRest segmentCount firstSegmentLen buf idx =>
    exact bounded_tryAsync (fun _ _ h => readSegmentTableRest_continue_withinLimit h)
      fun _ _ h => bounded_readMessageSegments (.inl (readSegmentTableRest_complete_le h))
  | segments segmentSlices ownedSpace idx => exact bounded_readSegments _ _ _ hk

theorem bounded_readMessage (read : Script) (options : ReaderOptions) :
    Bounded options (readMessage read options) :=
  bounded_resume read (show (ReadContinuation.segmentTableFirst (List.replicate 8 0) 0).WithinLimit
    options from trivial)

end Phases

theorem Bounded.withinLimit {options : ReaderOptions} {o : Outcome AsyncRead}
    (h : Bounded options o) {k : ReadContinuation} {read : Script} (ho : o = .ret (.ok (.continue k)) read) :
    k.WithinLimit options := by
  subst ho
  exact h

theorem ReachableWith.withinLimit {options : ReaderOptions} {k : ReadContinuation}
    (h : ReachableWith options k) : k.WithinLimit options := by
  induction h with
  | readMessage h => exact (bounded_readMessage _ _).withinLimit h
  | resume _ h ih => exact (bounded_resume _ ih).withinLimit h

/-- Over every run of a caller that passes the same options to `read_message` and to every
resumption, on any streams: every continuation it holds, and every message `read_message` or a
resumption completes, has an owned space within the traversal limit, unless the table has one
segment, whose owned space is bounded only by its `u32` length. -/
theorem reachableWith_withinLimit (options : ReaderOptions) :
    (∀ k, ReachableWith options k → k.WithinLimit options) ∧
    (∀ read msg read', readMessage read options = .ret (.ok (.complete msg)) read' →
      AllocationBounded options msg.segmentSlices msg.ownedSpace.length) ∧
    (∀ k, ReachableWith options k → ∀ read msg read',
      resume read options k = .ret (.ok (.complete msg)) read' →
        AllocationBounded options msg.segmentSlices msg.ownedSpace.length) := by
  refine ⟨fun _ h => h.withinLimit, fun read msg read' h => ?_, fun k hk read msg read' h => ?_⟩
  · have := bounded_readMessage read options
    rw [h] at this
    exact this
  · have := bounded_resume read hk.withinLimit
    rw [h] at this
    exact this

/-- The message of one zero word, under a traversal limit of one word: the first continuation,
which a `WouldBlock` at once hands out, is within the limit, and so is the message that
`read_message`, or the resumption of that continuation, completes on the whole frame. -/
theorem reachableWith_withinLimit_one_word :
    ReachableWith ⟨1⟩ (.segmentTableFirst (List.replicate 8 0) 0) ∧
      (ReadContinuation.segmentTableFirst (List.replicate 8 0) 0).WithinLimit ⟨1⟩ ∧
      ∃ msg read', readMessage (Script.oneChunk (encode [[Word.zero]]) ++ []) ⟨1⟩ =
          .ret (.ok (.complete msg)) read' ∧
        resume (Script.oneChunk (encode [[Word.zero]]) ++ []) ⟨1⟩
          (.segmentTableFirst (List.replicate 8 0) 0) = .ret (.ok (.complete msg)) read' ∧
        AllocationBounded ⟨1⟩ msg.segmentSlices msg.ownedSpace.length ∧
        AllocationBounded ⟨1⟩ msg.segmentSlices msg.ownedSpace.length :=
  have hk : ReachableWith ⟨1⟩ (.segmentTableFirst (List.replicate 8 0) 0) :=
    .readMessage (readMessage_wouldBlock_first ⟨1⟩ ⟨.wouldBlock, "not ready"⟩ rfl [])
  have h := readMessage_encode_eq ⟨1⟩ [[Word.zero]] [] (Script.flows_oneChunk _) []
    (by simp) (by decide) (by decide) (fun h => absurd h (by decide))
  ⟨hk, (reachableWith_withinLimit ⟨1⟩).1 _ hk, _, _, h, h,
    (reachableWith_withinLimit ⟨1⟩).2.1 _ _ _ h, (reachableWith_withinLimit ⟨1⟩).2.2 _ hk _ _ _ h⟩

end Capnp.Async
