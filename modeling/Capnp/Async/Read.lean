import Capnp.Async.Types
import Capnp.Async.ReadAll

/-!
# The asynchronous message reader

The functions of `async.rs` that read a message: the three phase functions
`readSegmentTableFirst`, `readSegmentTableRest` and `readSegments`, the table helpers, and
`readMessage`, which runs the phases in order. Each phase reads into its buffer from `idx` on
(`readInto`, the line the three share) and returns a continuation if the buffer is still not
full.

`readMessage` is split at its two `try_async!` points into `readMessageTable` and
`readMessageSegments`; `resume` is a caller re-invoking the phase a continuation names and then
going on as `readMessage` does.
-/

set_option autoImplicit false

namespace Capnp.Async

open Io

/-- `idx += try!(async_read_all(read, &mut buf[idx..]))`, the line the phase functions share: the
bytes read land in `buf` from `idx` on. Returns `buf` after the reads and the new `idx`; slicing
panics when `idx` is past the end of `buf`. The addition cannot overflow, since the drain reads no
more than `buf.len() - idx` bytes. -/
def readInto (read : Script) (buf : List UInt8) (idx : Nat) : Outcome (List UInt8 × Nat) :=
  if buf.length < idx then .panic .outOfBounds
  else
    match asyncReadAll read (buf.drop idx) with
    | (.ok (n, filled), read) => .ret (.ok (writeAt buf idx filled, idx + n)) read
    | (.error e, read) => .ret (.err (.io e)) read

/-- `read_segment_table_first`: reads, or continues reading, the first word of a segment table.
Returns the segment count, stored minus one and read with a wrapping addition, and the first
segment's length. -/
def readSegmentTableFirst (read : Script) (buf : List UInt8) (idx : Nat) :
    Outcome (AsyncValue (Nat × Nat) ReadContinuation) :=
  (readInto read buf idx).bind finish
where
  /-- The function after its read. -/
  finish : List UInt8 × Nat → Script → Outcome (AsyncValue (Nat × Nat) ReadContinuation)
    | (buf, idx), read =>
      if idx < buf.length then .ret (.ok (.continue (.segmentTableFirst buf idx))) read
      else
        let segmentCount := (readU32 buf + 1) % 2 ^ 32
        if 512 ≤ segmentCount then
          .ret (.err (.decode "Too many segments." (some (toString segmentCount)))) read
        else if segmentCount = 0 then
          .ret (.err (.decode "Too few segments." (some (toString segmentCount)))) read
        else .ret (.ok (.complete (segmentCount, readU32 (buf.drop 4)))) read

/-- `buf.chunks(4)`: consecutive four-byte chunks, the last one shorter when the length is not a
multiple of four. -/
def chunks4 : List UInt8 → List (List UInt8)
  | a :: b :: c :: d :: rest => [a, b, c, d] :: chunks4 rest
  | [] => []
  | rest => [rest]

/-- The loop of `read_segment_table_rest` over the table's chunks, from `(total_words,
segment_slices)`: each segment starts where the one before it ends, and its length is added to
`total_words`. `read_u32` panics on a short chunk, the addition on overflow. -/
def pushSegmentSlices : List (List UInt8) → Nat × List (Nat × Nat) →
    Except Panic (Nat × List (Nat × Nat))
  | [], acc => .ok acc
  | chunk :: chunks, (totalWords, segmentSlices) =>
    if chunk.length < 4 then .error .outOfBounds
    else if usizeBound ≤ totalWords + readU32 chunk then .error .overflow
    else
      pushSegmentSlices chunks
        (totalWords + readU32 chunk, segmentSlices ++ [(totalWords, totalWords + readU32 chunk)])

/-- The decode error for a table whose segments hold more words than the traversal limit. -/
def messageTooLarge (totalWords : Nat) : Error :=
  .decode "Message is too large. To increase the limit on the receiving end, see capnp::ReaderOptions."
    (some (toString totalWords))

/-- `read_segment_table_rest`: reads, or continues reading, the segment table after its first
word. Returns the total words and the segment slices. A message larger than the traversal limit
is refused, so that a sender cannot make the receiver allocate without bound. -/
def readSegmentTableRest (read : Script) (options : ReaderOptions)
    (segmentCount firstSegmentLen : Nat) (buf : List UInt8) (idx : Nat) :
    Outcome (AsyncValue (Nat × List (Nat × Nat)) ReadContinuation) :=
  (readInto read buf idx).bind finish
where
  /-- The function after its read. -/
  finish : List UInt8 × Nat → Script →
      Outcome (AsyncValue (Nat × List (Nat × Nat)) ReadContinuation)
    | (buf, idx), read =>
      if idx < buf.length then
        .ret (.ok (.continue (.segmentTableRest segmentCount firstSegmentLen buf idx))) read
      else if segmentCount < 1 then .panic .overflow
      else
        match pushSegmentSlices ((chunks4 buf).take (segmentCount - 1))
            (firstSegmentLen, [(0, firstSegmentLen)]) with
        | .error p => .panic p
        | .ok (totalWords, segmentSlices) =>
          if options.traversalLimitInWords.toNat < totalWords then
            .ret (.err (messageTooLarge totalWords)) read
          else .ret (.ok (.complete (totalWords, segmentSlices))) read

/-- `&owned_space[start..end]`, which panics unless `start ≤ end ≤ owned_space.len()`. -/
def wordSlice (ownedSpace : List Word) : Nat × Nat → Except Panic (List Word)
  | (start, stop) =>
    if start ≤ stop ∧ stop ≤ ownedSpace.length then .ok ((ownedSpace.take stop).drop start)
    else .error .outOfBounds

/-- `read_segments`: reads, or continues reading, the segments into `ownedSpace` through its byte
view, then builds the arena over the segment slices and the finished message. -/
def readSegments (read : Script) (options : ReaderOptions) (segmentSlices : List (Nat × Nat))
    (ownedSpace : List Word) (idx : Nat) : Outcome AsyncRead :=
  (readInto read (Word.wordsToBytes ownedSpace) idx).bind finish
where
  /-- The function after its read, with the byte view of the owned space. -/
  finish : List UInt8 × Nat → Script → Outcome AsyncRead
    | (buf, idx), read =>
      let ownedSpace := Word.bytesToWords buf
      if usizeBound ≤ ownedSpace.length * 8 then .panic .overflow
      else if idx < ownedSpace.length * 8 then
        .ret (.ok (.continue (.segments segmentSlices ownedSpace idx))) read
      else
        match segmentSlices.mapM (wordSlice ownedSpace) with
        | .error p => .panic p
        | .ok segments =>
          .ret (.ok (.complete ⟨options, ⟨segments, options⟩, segmentSlices, ownedSpace⟩)) read

/-- `create_segment_table_buf`: a zeroed buffer for the lengths after the first: the segment count
rounded down to even, times four bytes. -/
def createSegmentTableBuf (segmentCount : Nat) : Except Panic (List UInt8) :=
  if usizeBound ≤ segmentCount / 2 * 8 then .error .overflow
  else .ok (List.replicate (segmentCount / 2 * 8) 0)

/-- The last statement of `read_message`: allocate the zeroed owned space for the table's total
words and read the segments into it. -/
def readMessageSegments (options : ReaderOptions) : Nat × List (Nat × Nat) → Script →
    Outcome AsyncRead
  | (totalWords, segmentSlices), read =>
    readSegments read options segmentSlices (Word.allocateZeroedVec totalWords) 0

/-- `read_message` once the first word is read. A single segment's table is complete already;
otherwise the rest of the table is read. -/
def readMessageTable (options : ReaderOptions) : Nat × Nat → Script → Outcome AsyncRead
  | (segmentCount, firstSegmentLen), read =>
    tryAsync
      (if segmentCount = 1 then
        .ret (.ok (.complete (firstSegmentLen, [(0, firstSegmentLen)]))) read
      else
        match createSegmentTableBuf segmentCount with
        | .error p => .panic p
        | .ok buf => readSegmentTableRest read options segmentCount firstSegmentLen buf 0)
      (readMessageSegments options)

/-- `read_message`: reads a serialized message from `read` with the given options. -/
def readMessage (read : Script) (options : ReaderOptions) : Outcome AsyncRead :=
  tryAsync (readSegmentTableFirst read (List.replicate 8 0) 0) (readMessageTable options)

/-- A caller resuming a read that returned a continuation: the phase function the
continuation's tag names, on its fields and the same stream, then the phases after it as
`read_message` sequences them. -/
def resume (read : Script) (options : ReaderOptions) : ReadContinuation → Outcome AsyncRead
  | .segmentTableFirst buf idx =>
    tryAsync (readSegmentTableFirst read buf idx) (readMessageTable options)
  | .segmentTableRest segmentCount firstSegmentLen buf idx =>
    tryAsync (readSegmentTableRest read options segmentCount firstSegmentLen buf idx)
      (readMessageSegments options)
  | .segments segmentSlices ownedSpace idx => readSegments read options segmentSlices ownedSpace idx

theorem readMessage_eq_resume (read : Script) (options : ReaderOptions) :
    readMessage read options = resume read options (.segmentTableFirst (List.replicate 8 0) 0) :=
  rfl

end Capnp.Async
