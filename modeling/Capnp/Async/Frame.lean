import Capnp.Async.Phases
import Capnp.Async.Table

/-!
# The wire format, and what a completed read consumed

`frame pad segments` is the wire form of a message (the serialization format the reader
decodes): the segment count minus one and the segments' lengths as little-endian `u32`s, `pad`
when the count is even so that the table ends on a word, then the segments' words.

This module says what a call of `read_message` that completed or suspended consumed, on any
stream: one lemma per phase (`readSegments_eq_complete` and the others);
`readMessage_eq_complete`, `readMessage_complete_remains` and `readMessage_eq_continue`, which
chain them (a completed call reads on only through flowing answers, and a suspended one stops at
the first `WouldBlock`); and `frame_of_table`, which reads the frame back from the bytes the
table was decoded from.
-/

set_option autoImplicit false

namespace Capnp.Async

open Io

/-! ## The wire format -/

/-- The wire form of a message of `segments`: the segment count minus one, the segments'
lengths in words, `pad` when the count is even, then the segments' words, in order. -/
def frame (pad : List UInt8) (segments : List (List Word)) : List UInt8 :=
  leBytes 4 (segments.length - 1) ++ (segments.map fun seg => leBytes 4 seg.length).flatten ++
    (if segments.length % 2 = 0 then pad else []) ++ Word.wordsToBytes segments.flatten

/-- The frame a writer sends: zero padding. -/
def encode (segments : List (List Word)) : List UInt8 := frame [0, 0, 0, 0] segments

/-- The segment count the reader decodes from the table's first word `w`, stored minus one and
read with a wrapping addition. -/
def tableCount (w : List UInt8) : Nat := (readU32 w + 1) % 2 ^ 32

/-- The segment lengths the reader decodes from the table's first word `w` and the rest of the
table `tbl`: the first segment's, then one per four-byte field, for the count's segments. -/
def tableLengths (w tbl : List UInt8) : List Nat :=
  readU32 (w.drop 4) :: ((chunks4 tbl).take (tableCount w - 1)).map readU32

/-! ## What a completed or suspended phase consumed -/

section Phases

variable {read read' : Script} {options : ReaderOptions}

/-- A completed `read_segments` from the start of the owned space read the whole space, and the
message holds it with the views of its slices. -/
theorem readSegments_eq_complete {segmentSlices : List (Nat × Nat)} {ownedSpace : List Word}
    {msg : OwnedSpaceMessageReader}
    (h : readSegments read options segmentSlices ownedSpace 0 = .ret (.ok (.complete msg)) read') :
    msg.segmentSlices = segmentSlices ∧ msg.ownedSpace.length = ownedSpace.length ∧
      segmentSlices.mapM (wordSlice msg.ownedSpace) = .ok msg.arena.segments ∧
      read.bytes = Word.wordsToBytes msg.ownedSpace ++ read'.bytes ∧ read.Remains read' := by
  rw [readSegments] at h
  obtain ⟨⟨b, i⟩, r, h1, h2⟩ := Outcome.bind_eq_ok h
  obtain ⟨rfl, hc⟩ := readSegments_finish_eq_ok h2
  rcases hc with ⟨-, hv⟩ | ⟨hfull, segments, hm, hv⟩
  · cases hv
  cases hv
  obtain ⟨hb, -⟩ := readInto_ok_bounds h1
  simp only [Word.length_wordsToBytes] at hb
  obtain ⟨-, hbytes, hrem⟩ := readInto_ok_full h1 (by simp; omega)
  refine ⟨rfl, by simp [hb], hm, ?_, hrem⟩
  rwa [Word.wordsToBytes_bytesToWords b ⟨ownedSpace.length, hb⟩]

theorem readSegments_eq_continue {segmentSlices : List (Nat × Nat)} {ownedSpace : List Word}
    {idx : Nat} {k : ReadContinuation}
    (h : readSegments read options segmentSlices ownedSpace idx = .ret (.ok (.continue k)) read') :
    ∃ pre e, pre.Flows ∧ e.kind = .wouldBlock ∧ read = pre ++ .fail e :: read' := by
  rw [readSegments] at h
  obtain ⟨⟨b, i⟩, r, h1, h2⟩ := Outcome.bind_eq_ok h
  obtain ⟨rfl, hc⟩ := readSegments_finish_eq_ok h2
  rcases hc with ⟨hi, -⟩ | ⟨-, segments, -, hv⟩
  · obtain ⟨hb, -⟩ := readInto_ok_bounds h1
    exact readInto_ok_short h1 (by omega)
  · cases hv

/-- A completed `read_segment_table_rest` from the start of its buffer read the buffer's worth
of bytes, and its slices are the loop's over them, within the limit. -/
theorem readSegmentTableRest_eq_complete {segmentCount firstSegmentLen : Nat} {buf : List UInt8}
    {totalWords : Nat} {segmentSlices : List (Nat × Nat)}
    (h : readSegmentTableRest read options segmentCount firstSegmentLen buf 0 =
      .ret (.ok (.complete (totalWords, segmentSlices))) read') :
    ∃ tbl, tbl.length = buf.length ∧ read.bytes = tbl ++ read'.bytes ∧ read.Remains read' ∧
      pushSegmentSlices ((chunks4 tbl).take (segmentCount - 1))
        (firstSegmentLen, [(0, firstSegmentLen)]) = .ok (totalWords, segmentSlices) ∧
      totalWords ≤ options.traversalLimitInWords.toNat := by
  rw [readSegmentTableRest] at h
  obtain ⟨⟨b, i⟩, r, h1, h2⟩ := Outcome.bind_eq_ok h
  obtain ⟨rfl, hc⟩ := readSegmentTableRest_finish_eq_ok h2
  rcases hc with ⟨-, hv⟩ | ⟨hfull, _, _, hpush, hlim, hv⟩
  · cases hv
  cases hv
  obtain ⟨hb, hbytes, hrem⟩ := readInto_ok_full h1 (by rw [← (readInto_ok_bounds h1).1]; exact hfull)
  exact ⟨b, hb, hbytes, hrem, hpush, hlim⟩

theorem readSegmentTableRest_eq_continue {segmentCount firstSegmentLen : Nat} {buf : List UInt8}
    {idx : Nat} {k : ReadContinuation}
    (h : readSegmentTableRest read options segmentCount firstSegmentLen buf idx =
      .ret (.ok (.continue k)) read') :
    ∃ pre e, pre.Flows ∧ e.kind = .wouldBlock ∧ read = pre ++ .fail e :: read' := by
  rw [readSegmentTableRest] at h
  obtain ⟨⟨b, i⟩, r, h1, h2⟩ := Outcome.bind_eq_ok h
  obtain ⟨rfl, hc⟩ := readSegmentTableRest_finish_eq_ok h2
  rcases hc with ⟨hi, -⟩ | ⟨-, _, _, -, -, hv⟩
  · exact readInto_ok_short h1 (by rw [← (readInto_ok_bounds h1).1]; exact hi)
  · cases hv

/-- A completed `read_segment_table_first` from the start of its buffer read the buffer's worth
of bytes, a valid count and the first segment's length. -/
theorem readSegmentTableFirst_eq_complete {buf : List UInt8} {segmentCount firstSegmentLen : Nat}
    (h : readSegmentTableFirst read buf 0 =
      .ret (.ok (.complete (segmentCount, firstSegmentLen))) read') :
    ∃ w, w.length = buf.length ∧ read.bytes = w ++ read'.bytes ∧ read.Remains read' ∧
      segmentCount = (readU32 w + 1) % 2 ^ 32 ∧ 1 ≤ segmentCount ∧ segmentCount ≤ 511 ∧
      firstSegmentLen = readU32 (w.drop 4) := by
  rw [readSegmentTableFirst] at h
  obtain ⟨⟨b, i⟩, r, h1, h2⟩ := Outcome.bind_eq_ok h
  obtain ⟨rfl, hc⟩ := readSegmentTableFirst_finish_eq_ok h2
  rcases hc with ⟨-, hv⟩ | ⟨hfull, h1c, hc511, hv⟩
  · cases hv
  cases hv
  obtain ⟨hb, hbytes, hrem⟩ := readInto_ok_full h1 (by rw [← (readInto_ok_bounds h1).1]; exact hfull)
  exact ⟨b, hb, hbytes, hrem, rfl, h1c, hc511, rfl⟩

theorem readSegmentTableFirst_eq_continue {buf : List UInt8} {idx : Nat} {k : ReadContinuation}
    (h : readSegmentTableFirst read buf idx = .ret (.ok (.continue k)) read') :
    ∃ pre e, pre.Flows ∧ e.kind = .wouldBlock ∧ read = pre ++ .fail e :: read' := by
  rw [readSegmentTableFirst] at h
  obtain ⟨⟨b, i⟩, r, h1, h2⟩ := Outcome.bind_eq_ok h
  obtain ⟨rfl, hc⟩ := readSegmentTableFirst_finish_eq_ok h2
  rcases hc with ⟨hi, -⟩ | ⟨-, -, -, hv⟩
  · exact readInto_ok_short h1 (by rw [← (readInto_ok_bounds h1).1]; exact hi)
  · cases hv

theorem createSegmentTableBuf_eq_ok {segmentCount : Nat} {buf : List UInt8}
    (h : createSegmentTableBuf segmentCount = .ok buf) :
    buf = List.replicate (segmentCount / 2 * 8) 0 := by
  unfold createSegmentTableBuf at h
  split at h
  · cases h
  · cases h
    rfl

end Phases

/-! ## What a completed or suspended `read_message` consumed -/

/-- A completed `read_message` consumed the table's first word `w`, the rest of the table `tbl`,
and the owned space; the count is valid, the rest of the table is the count halved and rounded
down, in words, and the slices lay out the lengths the table gives. -/
theorem readMessage_eq_complete {read read' : Script} {options : ReaderOptions}
    {msg : OwnedSpaceMessageReader}
    (h : readMessage read options = .ret (.ok (.complete msg)) read') :
    ∃ w tbl, w.length = 8 ∧ 1 ≤ tableCount w ∧ tableCount w ≤ 511 ∧
      tbl.length = tableCount w / 2 * 8 ∧
      msg.segmentSlices = slicesFrom 0 (tableLengths w tbl) ∧
      msg.ownedSpace.length = (tableLengths w tbl).sum ∧
      msg.segmentSlices.mapM (wordSlice msg.ownedSpace) = .ok msg.arena.segments ∧
      read.bytes = w ++ tbl ++ Word.wordsToBytes msg.ownedSpace ++ read'.bytes := by
  rw [readMessage] at h
  obtain ⟨⟨c, f⟩, r1, h1, h2⟩ := tryAsync_eq_complete h
  obtain ⟨w, hw, hb1, -, rfl, hc1, hc511, rfl⟩ := readSegmentTableFirst_eq_complete h1
  change 1 ≤ tableCount w at hc1
  change tableCount w ≤ 511 at hc511
  rw [List.length_replicate] at hw
  rw [readMessageTable] at h2
  obtain ⟨⟨total, slices⟩, r2, h3, h4⟩ := tryAsync_eq_complete h2
  rw [readMessageSegments] at h4
  obtain ⟨hsl, hlen, hm, hb3, -⟩ := readSegments_eq_complete h4
  rw [Word.length_allocateZeroedVec] at hlen
  split at h3
  · cases h3
    refine ⟨w, [], hw, hc1, hc511, by simp [tableCount]; omega, ?_, ?_, by rwa [hsl], ?_⟩
    · simp [hsl, tableLengths]
    · simpa [tableLengths] using hlen
    · rw [hb1, hb3]
      simp
  · split at h3
    · cases h3
    rename_i hone _ buf hbuf
    obtain rfl := createSegmentTableBuf_eq_ok hbuf
    obtain ⟨tbl, htbl, hb2, -, hpush, -⟩ := readSegmentTableRest_eq_complete h3
    obtain ⟨-, rfl, rfl⟩ := pushSegmentSlices_eq_ok hpush
    refine ⟨w, tbl, hw, hc1, hc511, by simpa using htbl, by simp [hsl, tableLengths, tableCount],
      by simpa [tableLengths, tableCount] using hlen, by rwa [hsl], ?_⟩
    rw [hb1, hb2, hb3]
    simp

/-- After the first word, `read_message` completes by reading on through flowing answers. -/
theorem readMessageTable_complete_remains {read read' : Script} {options : ReaderOptions}
    {segmentCount firstSegmentLen : Nat} {msg : OwnedSpaceMessageReader}
    (h : readMessageTable options (segmentCount, firstSegmentLen) read =
      .ret (.ok (.complete msg)) read') : read.Remains read' := by
  rw [readMessageTable] at h
  obtain ⟨⟨total, slices⟩, r, h1, h2⟩ := tryAsync_eq_complete h
  rw [readMessageSegments] at h2
  refine Script.Remains.trans ?_ (readSegments_eq_complete h2).2.2.2.2
  split at h1
  · cases h1
    exact Script.Remains.refl _
  split at h1
  · cases h1
  · obtain ⟨_, -, -, hrem, -⟩ := readSegmentTableRest_eq_complete h1
    exact hrem

/-- After the first word, `read_message` suspends right after a `WouldBlock` answer, the answers
before it flowing. -/
theorem readMessageTable_eq_continue {read read' : Script} {options : ReaderOptions}
    {segmentCount firstSegmentLen : Nat} {k : ReadContinuation}
    (h : readMessageTable options (segmentCount, firstSegmentLen) read =
      .ret (.ok (.continue k)) read') :
    ∃ pre e, pre.Flows ∧ e.kind = .wouldBlock ∧ read = pre ++ .fail e :: read' := by
  rw [readMessageTable] at h
  rcases tryAsync_eq_continue h with h1 | ⟨⟨total, slices⟩, r, h1, h2⟩
  · split at h1
    · cases h1
    split at h1
    · cases h1
    · exact readSegmentTableRest_eq_continue h1
  rw [readMessageSegments] at h2
  obtain ⟨pre, e, hpre, he, hr⟩ := readSegments_eq_continue h2
  have hrem : read.Remains r := by
    split at h1
    · cases h1
      exact Script.Remains.refl _
    split at h1
    · cases h1
    · obtain ⟨_, -, -, hrem, -⟩ := readSegmentTableRest_eq_complete h1
      exact hrem
  obtain ⟨pre', hpre', hread⟩ := hrem.wouldBlock he hpre hr
  exact ⟨pre', e, hpre', he, hread⟩

/-- A completed `read_message` read on only through flowing answers. -/
theorem readMessage_complete_remains {read read' : Script} {options : ReaderOptions}
    {msg : OwnedSpaceMessageReader}
    (h : readMessage read options = .ret (.ok (.complete msg)) read') : read.Remains read' := by
  rw [readMessage] at h
  obtain ⟨⟨c, f⟩, r, h1, h2⟩ := tryAsync_eq_complete h
  obtain ⟨_, -, -, hrem, -⟩ := readSegmentTableFirst_eq_complete h1
  exact hrem.trans (readMessageTable_complete_remains h2)

/-- A suspended `read_message` stopped right after a `WouldBlock` answer, the answers before it
flowing. -/
theorem readMessage_eq_continue {read read' : Script} {options : ReaderOptions}
    {k : ReadContinuation} (h : readMessage read options = .ret (.ok (.continue k)) read') :
    ∃ pre e, pre.Flows ∧ e.kind = .wouldBlock ∧ read = pre ++ .fail e :: read' := by
  rw [readMessage] at h
  rcases tryAsync_eq_continue h with h1 | ⟨⟨c, f⟩, r, h1, h2⟩
  · exact readSegmentTableFirst_eq_continue h1
  obtain ⟨_, -, -, hrem, -⟩ := readSegmentTableFirst_eq_complete h1
  obtain ⟨pre, e, hpre, he, hr⟩ := readMessageTable_eq_continue h2
  obtain ⟨pre', hpre', hread⟩ := hrem.wouldBlock he hpre hr
  exact ⟨pre', e, hpre', he, hread⟩

/-! ## The frame -/

theorem length_flatten_take_chunks4 (tbl : List UInt8) (n : Nat) (h : 4 ∣ tbl.length)
    (hn : n ≤ tbl.length / 4) : ((chunks4 tbl).take n).flatten.length = 4 * n := by
  obtain ⟨hc4, hn4⟩ := chunks4_of_dvd tbl h
  rw [length_flatten_of_length_eq _ fun x hx => hc4 x (List.mem_of_mem_take hx), List.length_take,
    hn4, Nat.min_eq_left hn]

/-- The bytes a table was decoded from, followed by the owned space, are a frame of the segments
whose lengths the table gives, with the table's padding. -/
theorem frame_of_table (w tbl : List UInt8) (segments : List (List Word)) (hw : w.length = 8)
    (hc1 : 1 ≤ tableCount w) (hc511 : tableCount w ≤ 511)
    (htbl : tbl.length = tableCount w / 2 * 8)
    (hlens : segments.map List.length = tableLengths w tbl) :
    segments.length = tableCount w ∧
      ∃ pad, pad.length = 4 ∧ w ++ tbl ++ Word.wordsToBytes segments.flatten = frame pad segments := by
  have hx := readU32_lt w
  have hcw : readU32 w = tableCount w - 1 := by unfold tableCount at hc1 ⊢; omega
  obtain ⟨hc4, hn4⟩ := chunks4_of_dvd tbl ⟨tableCount w / 2 * 2, by omega⟩
  have htake : ((chunks4 tbl).take (tableCount w - 1)).length = tableCount w - 1 := by
    rw [List.length_take, hn4, htbl]
    omega
  have hlen : segments.length = tableCount w := by
    have := congrArg List.length hlens
    simp only [List.length_map, tableLengths, List.length_cons, htake] at this
    omega
  refine ⟨hlen, ?_⟩
  have hw4 : w = leBytes 4 (tableCount w - 1) ++ leBytes 4 (readU32 (w.drop 4)) := by
    rw [← hcw, leBytes_readU32_append w hw]
  have hfields : (segments.map fun seg => leBytes 4 seg.length) =
      leBytes 4 (readU32 (w.drop 4)) :: (chunks4 tbl).take (tableCount w - 1) := by
    rw [show (segments.map fun seg => leBytes 4 seg.length) =
        (segments.map List.length).map (leBytes 4) from (List.map_map (leBytes 4) _ _).symm,
      hlens, tableLengths, List.map_cons,
      map_leBytes_readU32 _ fun c hc => hc4 c (List.mem_of_mem_take hc)]
  have hsplit := List.take_append_drop (tableCount w - 1) (chunks4 tbl)
  have hpad : ((chunks4 tbl).drop (tableCount w - 1)).flatten.length =
      if tableCount w % 2 = 0 then 4 else 0 := by
    have := congrArg List.length (congrArg List.flatten hsplit)
    rw [List.flatten_append, List.length_append, flatten_chunks4, htbl,
      length_flatten_take_chunks4 tbl (tableCount w - 1) ⟨tableCount w / 2 * 2, by omega⟩
        (by omega)] at this
    split <;> omega
  have htable : w ++ tbl = leBytes 4 (tableCount w - 1) ++
      (leBytes 4 (readU32 (w.drop 4)) :: (chunks4 tbl).take (tableCount w - 1)).flatten ++
      ((chunks4 tbl).drop (tableCount w - 1)).flatten := by
    conv_lhs => rw [hw4, ← flatten_chunks4 tbl, ← hsplit]
    rw [List.flatten_cons, List.flatten_append]
    simp only [List.append_assoc]
  by_cases heven : tableCount w % 2 = 0
  · rw [if_pos heven] at hpad
    exact ⟨_, hpad, by rw [frame, hlen, hfields, htable, if_pos heven]⟩
  · rw [if_neg heven] at hpad
    refine ⟨[0, 0, 0, 0], rfl, ?_⟩
    rw [frame, hlen, hfields, htable, if_neg heven, List.eq_nil_of_length_eq_zero hpad,
      List.append_nil]

end Capnp.Async
