import Capnp.Async.Frame
import Capnp.Async.Invariant
import Capnp.Async.Resume

/-!
# What `read_message` reads

What `read_message` does on a stream that has a whole table ready, said once per shape of
table: `readMessage_one_segment` (one segment: the first word is the whole table, and the
reader goes on to the segments at once, whatever the traversal limit) and
`readMessage_multi_segment` (more: the rest of the table is read, and the total is checked
against the traversal limit before the owned space is allocated). `readSegments_words` reads
the segments.

The main theorems:

- `readMessage_encode`, the round trip: on a stream that delivers the frame a writer sends for
  any valid list of segments, then anything, `read_message` returns exactly those segments and
  leaves the stream right after the frame;
- `drive_readMessage_encode`, the same when the frame arrives in any chunks, with `WouldBlock`
  and `Interrupted` answers between them, and the caller resumes each continuation;
- `drive_readMessage_ends`: on any stream that ends, that caller's loop ends with a message or
  an error, never with a continuation or a panic;
- `readMessage_sound`, the converse, on any stream: a completed message has between one and 511
  segments and the call consumed exactly a frame of them, whatever the padding; a continuation
  comes right after a `WouldBlock` answer; so a stream that reports its end before a whole frame
  has arrived, with no `WouldBlock` before the end, is an error, whatever follows the end;
- `readMessage_one_segment_over_limit`: a table of one segment is never checked against the
  traversal limit.
-/

set_option autoImplicit false

namespace Capnp.Async

open Io

/-- A phase that reads from the start of its buffer, on a flowing prefix with enough bytes:
the buffer is the prefix's first bytes, and the stream is left right after them. -/
theorem bind_readInto_full {α : Type} {p : Script} (hp : p.Flows) (t : Script) {buf : List UInt8}
    (h : buf.length ≤ p.bytes.length) (Φ : List UInt8 × Nat → Script → Outcome α) :
    (readInto (p ++ t) buf 0).bind Φ =
      Φ (p.bytes.take buf.length, buf.length) (p.skip buf.length ++ t) := by
  rw [readInto_full hp t (Nat.zero_le _) (by omega), Outcome.bind_ok, Nat.sub_zero,
    ← writeAt_take, Nat.sub_zero, writeAt_zero_of_length _ _ (by simp; omega)]

theorem chunks4_flatten_append (fields : List (List UInt8)) (rest : List UInt8)
    (h : ∀ x ∈ fields, x.length = 4) : chunks4 (fields.flatten ++ rest) = fields ++ chunks4 rest := by
  induction fields with
  | nil => rfl
  | cons x fields ih =>
    rw [List.flatten_cons, List.append_assoc, chunks4_append _ _ (h x (List.mem_cons_self x _)),
      ih fun y hy => h y (List.mem_cons_of_mem x hy), List.cons_append]

/-! ## The first word -/

/-- The first phase on a flowing prefix that starts with the table's first word `w`. -/
theorem readMessage_first_word (options : ReaderOptions) {p : Script} (hp : p.Flows) (t : Script)
    (w more : List UInt8) (hw : w.length = 8) (hbytes : p.bytes = w ++ more) :
    readMessage (p ++ t) options =
      if 512 ≤ tableCount w then
        .ret (.err (.decode "Too many segments." (some (toString (tableCount w))))) (p.skip 8 ++ t)
      else if tableCount w = 0 then
        .ret (.err (.decode "Too few segments." (some (toString (tableCount w))))) (p.skip 8 ++ t)
      else readMessageTable options (tableCount w, readU32 (w.drop 4)) (p.skip 8 ++ t) := by
  have htake : p.bytes.take 8 = w := by rw [hbytes, List.take_left' hw]
  rw [readMessage, readSegmentTableFirst, tryAsync_bind,
    bind_readInto_full hp t (by simp [hbytes, hw])]
  simp only [List.length_replicate, htake, readSegmentTableFirst.finish, hw, lt_irrefl, if_false]
  unfold tableCount
  split
  · rfl
  split
  · rfl
  · rfl

/-- On a table whose count is one, `read_message` goes from the first word straight to the
segments, with the first segment's length as the whole size: it reads no more of the table and
checks no limit. -/
theorem readMessage_one_segment (options : ReaderOptions) {p : Script} (hp : p.Flows) (t : Script)
    (w more : List UInt8) (hw : w.length = 8) (hbytes : p.bytes = w ++ more)
    (hcount : readU32 w = 0) :
    readMessage (p ++ t) options =
      readSegments (p.skip 8 ++ t) options [(0, readU32 (w.drop 4))]
        (Word.allocateZeroedVec (readU32 (w.drop 4))) 0 := by
  have hc : tableCount w = 1 := by simp [tableCount, hcount]
  rw [readMessage_first_word options hp t w more hw hbytes, hc, readMessageTable]
  simp only [if_pos rfl, tryAsync_complete, readMessageSegments]
  rfl

/-- On a table of two to 511 segments, `read_message` reads the rest of the table, `tbl`, then
refuses a total past the traversal limit before allocating; otherwise it allocates the total
and goes on to the segments. -/
theorem readMessage_multi_segment (options : ReaderOptions) {p : Script} (hp : p.Flows)
    (t : Script) (w tbl more : List UInt8) (hw : w.length = 8) (hbytes : p.bytes = w ++ tbl ++ more)
    (hc2 : 2 ≤ tableCount w) (hc511 : tableCount w ≤ 511)
    (htbl : tbl.length = tableCount w / 2 * 8) :
    readMessage (p ++ t) options =
      if options.traversalLimitInWords.toNat < (tableLengths w tbl).sum then
        .ret (.err (messageTooLarge (tableLengths w tbl).sum)) (p.skip (8 + tbl.length) ++ t)
      else
        readSegments (p.skip (8 + tbl.length) ++ t) options (slicesFrom 0 (tableLengths w tbl))
          (Word.allocateZeroedVec (tableLengths w tbl).sum) 0 := by
  rw [readMessage_first_word options hp t w (tbl ++ more) hw (by rw [hbytes, List.append_assoc]),
    if_neg (by omega), if_neg (by omega), readMessageTable, if_neg (by omega)]
  rw [createSegmentTableBuf, if_neg (by simp only [usizeBound]; omega)]
  dsimp only
  have hp8 := Script.flows_skip hp 8
  have hb8 : (p.skip 8).bytes = tbl ++ more := by
    rw [Script.bytes_skip, hbytes, List.append_assoc, List.drop_left' hw]
  rw [readSegmentTableRest, tryAsync_bind, bind_readInto_full hp8 t (by simp [hb8, htbl])]
  simp only [List.length_replicate, hb8, ← htbl, List.take_left', readSegmentTableRest.finish,
    lt_irrefl, if_false, Script.skip_skip]
  rw [if_neg (by omega)]
  obtain ⟨hc4, hn4⟩ := chunks4_of_dvd tbl ⟨tableCount w / 2 * 2, by omega⟩
  have hsum := sum_readU32_le ((chunks4 tbl).take (tableCount w - 1))
  have hlen := List.length_take_le (tableCount w - 1) (chunks4 tbl)
  have hfirst := readU32_lt (w.drop 4)
  rw [pushSegmentSlices_of_valid _ _ _ (fun c hc => Nat.le_of_eq (hc4 c (List.mem_of_mem_take hc)).symm)
    (by simp only [usizeBound]; omega)]
  have htotal : readU32 (w.drop 4) + (((chunks4 tbl).take (tableCount w - 1)).map readU32).sum =
      (tableLengths w tbl).sum := by simp [tableLengths]
  have hslices : [(0, readU32 (w.drop 4))] ++ slicesFrom (readU32 (w.drop 4))
      (((chunks4 tbl).take (tableCount w - 1)).map readU32) = slicesFrom 0 (tableLengths w tbl) := by
    simp [tableLengths]
  dsimp only
  rw [htotal, hslices]
  split
  · rfl
  · rfl

/-! ## The table's checks -/

/-- The segment count is the table's first field plus one, wrapping at `2 ^ 32`: a field of
`0xFFFFFFFF` wraps to no segments and is refused, a field from 511 on gives 512 segments or
more and is refused, and a field of at most 510 goes on to the segment lengths. -/
theorem readMessage_segment_count (options : ReaderOptions) (p t : Script) (hp : p.Flows)
    (w more : List UInt8) (hw : w.length = 8) (hbytes : p.bytes = w ++ more) :
    (readU32 w = 0xFFFFFFFF → readMessage (p ++ t) options =
      .ret (.err (.decode "Too few segments." (some "0"))) (p.skip 8 ++ t)) ∧
    (511 ≤ readU32 w → readU32 w < 0xFFFFFFFF → readMessage (p ++ t) options =
      .ret (.err (.decode "Too many segments." (some (toString (readU32 w + 1))))) (p.skip 8 ++ t)) ∧
    (readU32 w ≤ 510 → readMessage (p ++ t) options =
      readMessageTable options (readU32 w + 1, readU32 (w.drop 4)) (p.skip 8 ++ t)) := by
  have hcount : readU32 w < 0xFFFFFFFF → tableCount w = readU32 w + 1 := fun h =>
    Nat.mod_eq_of_lt (by omega)
  rw [readMessage_first_word options hp t w more hw hbytes]
  refine ⟨fun h => ?_, fun h h' => ?_, fun h => ?_⟩
  · rw [show tableCount w = 0 by simp [tableCount, h]]
    rfl
  · rw [hcount h', if_pos (by omega)]
  · rw [hcount (by omega), if_neg (by omega), if_neg (by omega)]

/-- The three cases on a first word alone, under a traversal limit of zero: a field of
`0xFFFFFFFF`, of 511 and of 510. -/
theorem readMessage_segment_count_fields :
    readMessage (Script.oneChunk [255, 255, 255, 255, 0, 0, 0, 0] ++ []) ⟨0⟩ =
      .ret (.err (.decode "Too few segments." (some "0"))) [] ∧
    readMessage (Script.oneChunk [255, 1, 0, 0, 0, 0, 0, 0] ++ []) ⟨0⟩ =
      .ret (.err (.decode "Too many segments." (some "512"))) [] ∧
    readMessage (Script.oneChunk [254, 1, 0, 0, 0, 0, 0, 0] ++ []) ⟨0⟩ =
      readMessageTable ⟨0⟩ (511, 0) [] :=
  have hwrap := readMessage_segment_count ⟨0⟩ (Script.oneChunk [255, 255, 255, 255, 0, 0, 0, 0]) []
    (Script.flows_oneChunk _) [255, 255, 255, 255, 0, 0, 0, 0] [] rfl (by simp)
  have hmany := readMessage_segment_count ⟨0⟩ (Script.oneChunk [255, 1, 0, 0, 0, 0, 0, 0]) []
    (Script.flows_oneChunk _) [255, 1, 0, 0, 0, 0, 0, 0] [] rfl (by simp)
  have hon := readMessage_segment_count ⟨0⟩ (Script.oneChunk [254, 1, 0, 0, 0, 0, 0, 0]) []
    (Script.flows_oneChunk _) [254, 1, 0, 0, 0, 0, 0, 0] [] rfl (by simp)
  have h512 : toString (readU32 [255, 1, 0, 0, 0, 0, 0, 0] + 1) = "512" := by decide
  have h511 : readU32 [254, 1, 0, 0, 0, 0, 0, 0] + 1 = 511 := by decide
  have h0 : readU32 (([254, 1, 0, 0, 0, 0, 0, 0] : List UInt8).drop 4) = 0 := by decide
  ⟨by simpa [Script.skip_oneChunk] using hwrap.1 (by decide),
    by simpa [Script.skip_oneChunk, h512] using hmany.2.1 (by decide) (by decide),
    by simpa [Script.skip_oneChunk, h511, h0] using hon.2.2 (by decide)⟩

/-- `read_segments` on a flowing prefix that starts with the words of `segments`, with their
slices laid end to end: it completes with exactly those segments, and leaves the stream right
after their words. -/
theorem readSegments_words (options : ReaderOptions) {q : Script} (hq : q.Flows) (t : Script)
    (segments : List (List Word)) (rest : List UInt8)
    (hbytes : q.bytes = Word.wordsToBytes segments.flatten ++ rest)
    (hspace : 8 * (segments.map List.length).sum < usizeBound) :
    readSegments (q ++ t) options (slicesFrom 0 (segments.map List.length))
        (Word.allocateZeroedVec (segments.map List.length).sum) 0 =
      .ret (.ok (.complete ⟨options, ⟨segments, options⟩, slicesFrom 0 (segments.map List.length),
        segments.flatten⟩)) (q.skip (8 * (segments.map List.length).sum) ++ t) := by
  have hflat : segments.flatten.length = (segments.map List.length).sum := List.length_flatten _
  have htake : q.bytes.take (8 * (segments.map List.length).sum) =
      Word.wordsToBytes segments.flatten := by
    rw [hbytes, List.take_left' (by rw [Word.length_wordsToBytes, hflat])]
  rw [readSegments, bind_readInto_full hq t (by simp [hbytes, hflat])]
  simp only [Word.length_wordsToBytes, Word.length_allocateZeroedVec, htake,
    readSegments.finish, Word.bytesToWords_wordsToBytes, hflat]
  rw [if_neg (by omega), if_neg (by omega)]
  have hm := mapM_wordSlice_slicesFrom [] segments
  rw [List.nil_append, List.length_nil] at hm
  rw [hm]

/-! ## The round trip -/

theorem sum_length_le {segments : List (List Word)} (hlen : ∀ seg ∈ segments, seg.length < 2 ^ 32) :
    (segments.map List.length).sum ≤ segments.length * 2 ^ 32 := by
  induction segments with
  | nil => simp
  | cons seg segs ih =>
    have := hlen seg (List.mem_cons_self seg segs)
    have := ih fun s hs => hlen s (List.mem_cons_of_mem seg hs)
    simp only [List.map_cons, List.sum_cons, List.length_cons]
    omega

/-- The frame a writer sends, split as the reader reads it: the table's first word, the rest of
the table, which gives the segments' lengths, and the segments' words. -/
theorem encode_split (segments : List (List Word))
    (hcount : 1 ≤ segments.length ∧ segments.length ≤ 511)
    (hlen : ∀ seg ∈ segments, seg.length < 2 ^ 32) :
    ∃ w tbl, w.length = 8 ∧ tableCount w = segments.length ∧
      tbl.length = segments.length / 2 * 8 ∧ tableLengths w tbl = segments.map List.length ∧
      encode segments = w ++ tbl ++ Word.wordsToBytes segments.flatten := by
  obtain ⟨seg, segs, rfl⟩ : ∃ seg segs, segments = seg :: segs := by
    cases segments with
    | nil => simp at hcount
    | cons seg segs => exact ⟨seg, segs, rfl⟩
  simp only [List.length_cons] at hcount ⊢
  have hseg := hlen seg (List.mem_cons_self seg segs)
  have hfields : ∀ x ∈ segs.map (fun s => leBytes 4 s.length), x.length = 4 := by simp
  have hcw : readU32 (leBytes 4 segs.length ++ leBytes 4 seg.length) = segs.length := by
    rw [readU32_append _ _ (length_leBytes 4 _), readU32_leBytes _ (by omega)]
  have htc : tableCount (leBytes 4 segs.length ++ leBytes 4 seg.length) = segs.length + 1 := by
    rw [tableCount, hcw, Nat.mod_eq_of_lt (by omega)]
  refine ⟨leBytes 4 segs.length ++ leBytes 4 seg.length,
    (segs.map fun s => leBytes 4 s.length).flatten ++
      (if (segs.length + 1) % 2 = 0 then [0, 0, 0, 0] else []), by simp, htc, ?_, ?_, ?_⟩
  · rw [List.length_append, length_flatten_of_length_eq _ hfields, List.length_map]
    split <;> simp <;> omega
  · rw [tableLengths, List.drop_left' (length_leBytes 4 _), readU32_leBytes _ hseg, htc,
      chunks4_flatten_append _ _ hfields, Nat.add_sub_cancel, List.take_left' (List.length_map _ _),
      List.map_map, List.map_cons]
    exact congrArg (List.cons _)
      (List.map_congr_left fun s hs => readU32_leBytes _ (hlen s (List.mem_cons_of_mem seg hs)))
  · simp [encode, frame, List.append_assoc]

/-- On a stream that delivers the frame a writer sends for `segments`, then `rest`, without
blocking, `read_message` returns a message of exactly `segments`, laid end to end in its owned
space, and leaves the stream right after the frame. Only a table of two or more segments is
checked against the traversal limit. -/
theorem readMessage_encode_eq (options : ReaderOptions) (segments : List (List Word))
    (rest : List UInt8) {p : Script} (hp : p.Flows) (t : Script)
    (hbytes : p.bytes = encode segments ++ rest)
    (hcount : 1 ≤ segments.length ∧ segments.length ≤ 511)
    (hlen : ∀ seg ∈ segments, seg.length < 2 ^ 32)
    (hlimit : 2 ≤ segments.length →
      (segments.map List.length).sum ≤ options.traversalLimitInWords.toNat) :
    readMessage (p ++ t) options =
      .ret (.ok (.complete ⟨options, ⟨segments, options⟩, slicesFrom 0 (segments.map List.length),
        segments.flatten⟩)) (p.skip (encode segments).length ++ t) := by
  obtain ⟨w, tbl, hw, htc, htbl, hlens, henc⟩ := encode_split segments hcount hlen
  have hbound := sum_length_le hlen
  have hspace : 8 * (segments.map List.length).sum < usizeBound := by
    simp only [usizeBound]
    omega
  have hp' : p.bytes = w ++ tbl ++ (Word.wordsToBytes segments.flatten ++ rest) := by
    rw [hbytes, henc, List.append_assoc]
  have hq : (p.skip (8 + tbl.length)).bytes = Word.wordsToBytes segments.flatten ++ rest := by
    rw [Script.bytes_skip, hp', List.drop_left' (by rw [List.length_append, hw])]
  have hend : (encode segments).length = 8 + tbl.length + 8 * (segments.map List.length).sum := by
    rw [henc, List.length_append, List.length_append, hw, Word.length_wordsToBytes,
      List.length_flatten]
  rw [hend, ← Script.skip_skip]
  by_cases hone : segments.length = 1
  · -- one segment: the first word is the whole table
    have htbl0 : tbl = [] := List.eq_nil_of_length_eq_zero (by omega)
    subst htbl0
    have hc : readU32 w = 0 := by
      have := readU32_lt w
      unfold tableCount at htc
      omega
    have hl : segments.map List.length = [readU32 (w.drop 4)] := by
      rw [← hlens, tableLengths, htc, hone]
      rfl
    rw [readMessage_one_segment options hp t w (Word.wordsToBytes segments.flatten ++ rest) hw
      (by rw [hp', List.append_nil]) hc]
    have e1 : [(0, readU32 (w.drop 4))] = slicesFrom 0 (segments.map List.length) := by simp [hl]
    have e2 : readU32 (w.drop 4) = (segments.map List.length).sum := by simp [hl]
    rw [e1, e2, ← readSegments_words options (Script.flows_skip hp _) t segments rest hq hspace]
    rfl
  · -- more: the rest of the table is read, and checked against the limit
    rw [readMessage_multi_segment options hp t w tbl _ hw hp' (by omega) (by omega) (by omega),
      hlens, if_neg (by have := hlimit (by omega); omega),
      readSegments_words options (Script.flows_skip hp _) t segments rest hq hspace]

/-- The round trip: on a stream that delivers, without blocking, the frame a writer sends for
any one to 511 segments of fewer than `2 ^ 32` words and within the traversal limit, followed by
anything, `read_message` returns a message with one slice per segment, whose views are the
segments, and leaves the stream right after the frame. -/
theorem readMessage_encode (options : ReaderOptions) (segments : List (List Word))
    (rest : List UInt8) (p t : Script) (hp : p.Flows) (hbytes : p.bytes = encode segments ++ rest)
    (hcount : 1 ≤ segments.length ∧ segments.length ≤ 511)
    (hlen : ∀ seg ∈ segments, seg.length < 2 ^ 32)
    (hlimit : (segments.map List.length).sum ≤ options.traversalLimitInWords.toNat) :
    ∃ msg read', readMessage (p ++ t) options = .ret (.ok (.complete msg)) read' ∧
      msg.segmentSlices.length = segments.length ∧
      msg.segmentSlices.mapM (wordSlice msg.ownedSpace) = .ok segments ∧
      read'.bytes = rest ++ t.bytes := by
  refine ⟨_, _, readMessage_encode_eq options segments rest hp t hbytes hcount hlen
    (fun _ => hlimit), by simp, ?_, ?_⟩
  · simpa using mapM_wordSlice_slicesFrom [] segments
  · rw [Script.bytes_append, Script.bytes_skip, hbytes, List.drop_left]

/-- Two segments of one zero word each, in one chunk with nothing after them, under a traversal
limit of two words. -/
theorem readMessage_encode_two_words :
    (Script.oneChunk (encode [[Word.zero], [Word.zero]])).Flows ∧
    (Script.oneChunk (encode [[Word.zero], [Word.zero]])).bytes =
      encode [[Word.zero], [Word.zero]] ++ [] ∧
    (1 ≤ [[Word.zero], [Word.zero]].length ∧ [[Word.zero], [Word.zero]].length ≤ 511) ∧
    (∀ seg ∈ [[Word.zero], [Word.zero]], seg.length < 2 ^ 32) ∧
    ([[Word.zero], [Word.zero]].map List.length).sum ≤
      (ReaderOptions.mk 2).traversalLimitInWords.toNat ∧
    ∃ msg read', readMessage (Script.oneChunk (encode [[Word.zero], [Word.zero]]) ++ []) ⟨2⟩ =
        .ret (.ok (.complete msg)) read' ∧
      msg.segmentSlices.length = [[Word.zero], [Word.zero]].length ∧
      msg.segmentSlices.mapM (wordSlice msg.ownedSpace) = .ok [[Word.zero], [Word.zero]] ∧
      read'.bytes = [] ++ Script.bytes [] :=
  ⟨Script.flows_oneChunk _, by simp, by decide, by decide, by decide,
    readMessage_encode ⟨2⟩ _ [] _ [] (Script.flows_oneChunk _) (by simp) (by decide) (by decide)
      (by decide)⟩

/-! ## The caller's loop -/

/-- The round trip when the frame comes in pieces: on a stream that delivers the frame for any
valid segments, then `rest`, in any chunks with `WouldBlock` and `Interrupted` answers between
them, the caller's loop, resuming each continuation it gets, ends with a message of exactly
those segments, and leaves `rest` in the stream. -/
theorem drive_readMessage_encode (options : ReaderOptions) (segments : List (List Word))
    (rest : List UInt8) (script : Script) (fuel : Nat) (hd : Delivers script (encode segments ++ rest))
    (hfuel : script.length ≤ fuel) (hcount : 1 ≤ segments.length ∧ segments.length ≤ 511)
    (hlen : ∀ seg ∈ segments, seg.length < 2 ^ 32)
    (hlimit : (segments.map List.length).sum ≤ options.traversalLimitInWords.toNat) :
    ∃ msg read', drive options fuel (readMessage script options) = .ret (.ok (.complete msg)) read' ∧
      msg.segmentSlices.length = segments.length ∧
      msg.segmentSlices.mapM (wordSlice msg.ownedSpace) = .ok segments ∧
      read'.bytes = rest := by
  have hagree := drive_readMessage_agree_oneChunk options _ script fuel hd hfuel
  rw [← List.append_nil (Script.oneChunk _)] at hagree
  rw [readMessage_encode_eq options segments rest (Script.flows_oneChunk _) []
    (Script.bytes_oneChunk _) hcount hlen fun _ => hlimit] at hagree
  obtain ⟨read', h, hbytes⟩ := hagree.eq_ret
  refine ⟨_, read', h, by simp, by simpa using mapM_wordSlice_slicesFrom [] segments, ?_⟩
  rw [hbytes, List.append_nil, Script.bytes_skip, Script.bytes_oneChunk, List.drop_left]

/-- A one-word segment whose frame is split by a `WouldBlock` after six bytes. -/
theorem drive_readMessage_encode_split :
    Delivers [.data [0, 0, 0, 0, 1, 0], .fail ⟨.wouldBlock, "not ready"⟩, .data (List.replicate 10 0)]
      (encode [[Word.zero]] ++ []) ∧
    [Event.data [0, 0, 0, 0, 1, 0], .fail ⟨.wouldBlock, "not ready"⟩,
      .data (List.replicate 10 0)].length ≤ 3 ∧
    (1 ≤ [[Word.zero]].length ∧ [[Word.zero]].length ≤ 511) ∧
    (∀ seg ∈ [[Word.zero]], seg.length < 2 ^ 32) ∧
    ([[Word.zero]].map List.length).sum ≤ (ReaderOptions.mk 1).traversalLimitInWords.toNat ∧
    ∃ msg read', drive ⟨1⟩ 3 (readMessage [.data [0, 0, 0, 0, 1, 0], .fail ⟨.wouldBlock, "not ready"⟩,
        .data (List.replicate 10 0)] ⟨1⟩) = .ret (.ok (.complete msg)) read' ∧
      msg.segmentSlices.length = [[Word.zero]].length ∧
      msg.segmentSlices.mapM (wordSlice msg.ownedSpace) = .ok [[Word.zero]] ∧
      read'.bytes = [] :=
  have hd : Delivers [.data [0, 0, 0, 0, 1, 0], .fail ⟨.wouldBlock, "not ready"⟩,
      .data (List.replicate 10 0)] (encode [[Word.zero]] ++ []) := by
    rw [show encode [[Word.zero]] ++ [] = [0, 0, 0, 0, 1, 0] ++ (List.replicate 10 0 ++ []) by decide]
    exact .data (by decide) (.pause (.inl rfl) (.data (by decide) .nil))
  ⟨hd, by decide, by decide, by decide, by decide,
    drive_readMessage_encode ⟨1⟩ _ [] _ 3 hd (by decide) (by decide) (by decide) (by decide)⟩

/-- The caller's loop ends: on a stream that delivers any bytes in any chunks, with
`WouldBlock` and `Interrupted` answers between them, and then ends, the loop given one
resumption per answer returns a completed message or an error, never a continuation, and does
not panic. -/
theorem drive_readMessage_ends (options : ReaderOptions) (s : List UInt8) (script : Script)
    (fuel : Nat) (hd : Delivers script s) (hfuel : script.length ≤ fuel) :
    ∃ r read', drive options fuel (readMessage script options) = .ret r read' ∧
      ∀ k, r ≠ .ok (.continue k) := by
  have hagree := drive_readMessage_agree_oneChunk options s script fuel hd hfuel
  cases h1 : readMessage (Script.oneChunk s) options with
  | panic p => exact absurd h1 ((safe_readMessage _ _).ne_panic p)
  | ret r read =>
    obtain ⟨read', h, -⟩ := (h1 ▸ hagree).eq_ret
    refine ⟨r, read', h, fun k hk => ?_⟩
    obtain ⟨pre, e, -, -, hr⟩ := readMessage_eq_continue (hk ▸ h1)
    have he : Event.fail e ∈ Script.oneChunk s := by simp [hr]
    unfold Script.oneChunk at he
    split at he <;> simp at he

/-- The two-segment frame split by a `WouldBlock`, then the end of the stream. -/
theorem drive_readMessage_ends_split :
    Delivers [.data [1, 0, 0, 0, 1, 0], .fail ⟨.wouldBlock, "not ready"⟩,
        .data ([0, 0, 1, 0, 0, 0, 0, 0, 0, 0] ++ List.replicate 16 7)]
      ([1, 0, 0, 0, 1, 0] ++ [0, 0, 1, 0, 0, 0, 0, 0, 0, 0] ++ List.replicate 16 7) ∧
    [Event.data [1, 0, 0, 0, 1, 0], .fail ⟨.wouldBlock, "not ready"⟩,
        .data ([0, 0, 1, 0, 0, 0, 0, 0, 0, 0] ++ List.replicate 16 7)].length ≤ 3 ∧
    ∃ r read', drive ⟨16⟩ 3 (readMessage [.data [1, 0, 0, 0, 1, 0], .fail ⟨.wouldBlock, "not ready"⟩,
        .data ([0, 0, 1, 0, 0, 0, 0, 0, 0, 0] ++ List.replicate 16 7)] ⟨16⟩) = .ret r read' ∧
      ∀ k, r ≠ .ok (.continue k) :=
  have hd : Delivers [.data [1, 0, 0, 0, 1, 0], .fail ⟨.wouldBlock, "not ready"⟩,
        .data ([0, 0, 1, 0, 0, 0, 0, 0, 0, 0] ++ List.replicate 16 7)]
      ([1, 0, 0, 0, 1, 0] ++ [0, 0, 1, 0, 0, 0, 0, 0, 0, 0] ++ List.replicate 16 7) := by
    simpa using Delivers.data (List.cons_ne_nil _ _) (.pause (.inl rfl)
      (Delivers.data (List.cons_ne_nil _ _) .nil))
  ⟨hd, by decide, drive_readMessage_ends ⟨16⟩ _ _ 3 hd (by decide)⟩

/-! ## What any call returns -/

/-- What any call of `read_message` comes to, on any stream and with any options. A completed
message has between one and 511 segments, its slices' views are its segments, and the call
consumed exactly a frame of them, whatever the padding. A continuation is returned right after a
`WouldBlock` answer. So a stream that reports its end (it runs out, or a read returns zero bytes)
after `pre`, with no `WouldBlock` answer in `pre` and no whole frame at the start of `pre`'s
bytes, gives an error, whatever follows the end. -/
theorem readMessage_sound (read : Script) (options : ReaderOptions) (res : Result AsyncRead)
    (read' : Script) (h : readMessage read options = .ret res read') :
    (∀ msg, res = .ok (.complete msg) →
      msg.segmentSlices.length = msg.arena.segments.length ∧
      1 ≤ msg.arena.segments.length ∧ msg.arena.segments.length ≤ 511 ∧
      msg.segmentSlices.mapM (wordSlice msg.ownedSpace) = .ok msg.arena.segments ∧
      ∃ pad, pad.length = 4 ∧ read.bytes = frame pad msg.arena.segments ++ read'.bytes) ∧
    (∀ k, res = .ok (.continue k) →
      ∃ pre e, e.kind = .wouldBlock ∧ read = pre ++ .fail e :: read') ∧
    (∀ pre tail, read = pre ++ tail → (tail = [] ∨ ∃ t', tail = .data [] :: t') →
      (∀ e, Event.fail e ∈ pre → e.kind ≠ .wouldBlock) →
      (∀ pad segments rest, pad.length = 4 → 1 ≤ segments.length → segments.length ≤ 511 →
        pre.bytes ≠ frame pad segments ++ rest) →
      ∃ e, res = .err e) := by
  have hcomplete : ∀ msg, res = .ok (.complete msg) →
      msg.segmentSlices.length = msg.arena.segments.length ∧
      1 ≤ msg.arena.segments.length ∧ msg.arena.segments.length ≤ 511 ∧
      msg.segmentSlices.mapM (wordSlice msg.ownedSpace) = .ok msg.arena.segments ∧
      ∃ pad, pad.length = 4 ∧ read.bytes = frame pad msg.arena.segments ++ read'.bytes := by
    rintro msg rfl
    obtain ⟨w, tbl, hw, hc1, hc511, htbl, hsl, hlen, hm, hbytes⟩ := readMessage_eq_complete h
    have htiles := tiles_slicesFrom 0 (tableLengths w tbl)
    rw [← hsl, Nat.zero_add, ← hlen] at htiles
    obtain ⟨hflat, hsl'⟩ := flatten_of_mapM_wordSlice _ htiles (Nat.le_refl _) hm
    rw [List.take_length, List.drop_zero] at hflat
    obtain ⟨hcount, pad, hpad, hframe⟩ := frame_of_table w tbl msg.arena.segments hw hc1 hc511 htbl
      (slicesFrom_inj (hsl'.symm.trans hsl))
    refine ⟨by rw [hsl', length_slicesFrom, List.length_map], by omega, by omega, hm, pad, hpad, ?_⟩
    rw [hbytes, ← hflat, hframe]
  refine ⟨hcomplete, fun k hk => ?_, fun pre tail hread htail hblock hframe => ?_⟩
  · obtain ⟨pre, e, -, he, hr⟩ := readMessage_eq_continue (hk ▸ h)
    exact ⟨pre, e, he, hr⟩
  match res, h, hcomplete with
  | .err e, _, _ => exact ⟨e, rfl⟩
  | .ok (.complete msg), h, hc =>
    -- the frame was read on through flowing answers, so before the end of the stream
    obtain ⟨-, h1, h511, -, pad, hpad, hb⟩ := hc msg rfl
    obtain ⟨rest, hrest⟩ :=
      (readMessage_complete_remains h).consumed_before_end hb hread htail
    exact absurd hrest (hframe pad _ rest hpad h1 h511)
  | .ok (.continue k), h, _ =>
    -- the `WouldBlock` comes before the end of the stream, so inside `pre`
    obtain ⟨q, e, hq, he, rfl⟩ := readMessage_eq_continue h
    have hq' : Event.data [] ∉ q ++ [.fail e] := by simpa using hq.not_mem_data_nil
    obtain ⟨u, rfl⟩ := Script.eq_append_of_stop (by simpa using hread)
      (htail.imp_right fun ⟨t', h⟩ => ⟨_, t', h, hq'⟩)
    exact absurd he (hblock e (by simp))

/-- A stream that delivers half of the first word, reports its end with a read of zero bytes,
and then has the other half: `read_message` returns the premature end of stream, as the third
part says. -/
theorem readMessage_sound_truncated :
    ∃ res read', readMessage [.data [0, 0, 0, 0], .data [], .data [0, 0, 0, 0]] ⟨0⟩ =
        .ret res read' ∧
      (∀ msg, res = .ok (.complete msg) →
        msg.segmentSlices.length = msg.arena.segments.length ∧
        1 ≤ msg.arena.segments.length ∧ msg.arena.segments.length ≤ 511 ∧
        msg.segmentSlices.mapM (wordSlice msg.ownedSpace) = .ok msg.arena.segments ∧
        ∃ pad, pad.length = 4 ∧ Script.bytes [.data [0, 0, 0, 0], .data [], .data [0, 0, 0, 0]] =
          frame pad msg.arena.segments ++ read'.bytes) ∧
      (∀ k, res = .ok (.continue k) → ∃ pre e, e.kind = .wouldBlock ∧
        [.data [0, 0, 0, 0], .data [], .data [0, 0, 0, 0]] = pre ++ .fail e :: read') ∧
      (∀ pre tail : Script, [.data [0, 0, 0, 0], .data [], .data [0, 0, 0, 0]] = pre ++ tail →
        (tail = [] ∨ ∃ t', tail = .data [] :: t') →
        (∀ e, Event.fail e ∈ pre → e.kind ≠ .wouldBlock) →
        (∀ pad segments rest, pad.length = 4 → 1 ≤ segments.length → segments.length ≤ 511 →
          pre.bytes ≠ frame pad segments ++ rest) →
        ∃ e, res = .err e) :=
  have h : readMessage [.data [0, 0, 0, 0], .data [], .data [0, 0, 0, 0]] ⟨0⟩ =
      .ret (.err (.io prematureEof)) [.data [0, 0, 0, 0]] := by
    rw [readMessage, readSegmentTableFirst,
      show [Event.data [0, 0, 0, 0], .data [], .data [0, 0, 0, 0]] =
        [.data [0, 0, 0, 0]] ++ .data [] :: [.data [0, 0, 0, 0]] from rfl,
      readInto_data_nil (by simp [Event.flows]) _ (by simp)]
    rfl
  ⟨_, _, h, readMessage_sound _ _ _ _ h⟩

/-- The segment slices of a completed message tile its owned space: the first starts at 0, each
starts where the one before it ends, and the last ends at the end of the space; each slice is
as long as its segment. -/
theorem readMessage_slices_tile (read : Script) (options : ReaderOptions)
    (msg : OwnedSpaceMessageReader) (read' : Script)
    (h : readMessage read options = .ret (.ok (.complete msg)) read') :
    Tiles 0 msg.segmentSlices msg.ownedSpace.length ∧
      msg.segmentSlices = slicesFrom 0 (msg.arena.segments.map List.length) := by
  obtain ⟨w, tbl, -, -, -, -, hsl, hlen, hm, -⟩ := readMessage_eq_complete h
  have htiles := tiles_slicesFrom 0 (tableLengths w tbl)
  rw [← hsl, Nat.zero_add, ← hlen] at htiles
  exact ⟨htiles, (flatten_of_mapM_wordSlice _ htiles (Nat.le_refl _) hm).2⟩

theorem readMessage_slices_tile_two_words :
    readMessage (Script.oneChunk (encode [[Word.zero], [Word.zero]]) ++ []) ⟨2⟩ =
      .ret (.ok (.complete ⟨⟨2⟩, ⟨[[Word.zero], [Word.zero]], ⟨2⟩⟩,
        slicesFrom 0 ([[Word.zero], [Word.zero]].map List.length), [[Word.zero], [Word.zero]].flatten⟩))
        ((Script.oneChunk (encode [[Word.zero], [Word.zero]])).skip
          (encode [[Word.zero], [Word.zero]]).length ++ []) ∧
    Tiles 0 (slicesFrom 0 ([[Word.zero], [Word.zero]].map List.length))
      [[Word.zero], [Word.zero]].flatten.length ∧
    slicesFrom 0 ([[Word.zero], [Word.zero]].map List.length) =
      slicesFrom 0 ([[Word.zero], [Word.zero]].map List.length) :=
  have h := readMessage_encode_eq ⟨2⟩ [[Word.zero], [Word.zero]] [] (Script.flows_oneChunk _) []
    (by simp) (by decide) (by decide) (fun _ => by decide)
  ⟨h, readMessage_slices_tile _ _ _ _ h⟩

/-- On a stream that never answers `WouldBlock`, every `Ok` of `read_message` is a completed
message, so `AsyncValue::unwrap` on it returns the message and does not panic. -/
theorem readMessage_unwrap (read : Script) (options : ReaderOptions)
    (hno : ∀ e, Event.fail e ∈ read → e.kind ≠ .wouldBlock) (v : AsyncRead) (read' : Script)
    (h : readMessage read options = .ret (.ok v) read') :
    ∃ msg, v = .complete msg ∧ v.unwrap = .ok msg := by
  cases v with
  | complete msg => exact ⟨msg, rfl, rfl⟩
  | «continue» k =>
    obtain ⟨pre, e, -, hwb, rfl⟩ := readMessage_eq_continue h
    exact absurd hwb (hno e (by simp))

theorem readMessage_unwrap_one_word :
    (∀ e, Event.fail e ∈ Script.oneChunk (encode [[Word.zero]]) ++ [] → e.kind ≠ .wouldBlock) ∧
    readMessage (Script.oneChunk (encode [[Word.zero]]) ++ []) ⟨1⟩ =
      .ret (.ok (.complete ⟨⟨1⟩, ⟨[[Word.zero]], ⟨1⟩⟩, slicesFrom 0 ([[Word.zero]].map List.length),
        [[Word.zero]].flatten⟩)) ((Script.oneChunk (encode [[Word.zero]])).skip
          (encode [[Word.zero]]).length ++ []) ∧
    ∃ msg, (.complete ⟨⟨1⟩, ⟨[[Word.zero]], ⟨1⟩⟩, slicesFrom 0 ([[Word.zero]].map List.length),
        [[Word.zero]].flatten⟩ : AsyncRead) = .complete msg ∧
      (.complete ⟨⟨1⟩, ⟨[[Word.zero]], ⟨1⟩⟩, slicesFrom 0 ([[Word.zero]].map List.length),
        [[Word.zero]].flatten⟩ : AsyncRead).unwrap = .ok msg :=
  have hno : ∀ e, Event.fail e ∈ Script.oneChunk (encode [[Word.zero]]) ++ [] →
      e.kind ≠ .wouldBlock := fun e he => by simp [Script.oneChunk] at he
  have h := readMessage_encode_eq ⟨1⟩ [[Word.zero]] [] (Script.flows_oneChunk _) []
    (by simp) (by decide) (by decide) (fun h => absurd h (by decide))
  ⟨hno, h, readMessage_unwrap _ _ hno _ _ h⟩

/-! ## A single segment is not checked against the limit -/

/-- A table of one segment of `2 ^ 32 - 1` words, under a traversal limit of zero, followed by a
`WouldBlock`: `read_message` allocates the whole owned space and returns a continuation over it,
instead of refusing the table. -/
theorem readMessage_one_segment_over_limit :
    readMessage [.data [0, 0, 0, 0, 255, 255, 255, 255], .fail ⟨.wouldBlock, "not ready"⟩] ⟨0⟩ =
      .ret (.ok (.continue (.segments [(0, 4294967295)] (Word.allocateZeroedVec 4294967295) 0))) [] := by
  have hp : Script.Flows [Event.data [0, 0, 0, 0, 255, 255, 255, 255]] := by simp [Event.flows]
  have h := readMessage_one_segment ⟨0⟩ hp [.fail ⟨.wouldBlock, "not ready"⟩]
    [0, 0, 0, 0, 255, 255, 255, 255] [] rfl (by simp) (by decide)
  have hN : readU32 (List.drop 4 [0, 0, 0, 0, 255, 255, 255, 255]) = 4294967295 := by decide
  have hskip : Script.skip 8 [Event.data [0, 0, 0, 0, 255, 255, 255, 255]] = [] := by decide
  rw [hN, hskip, List.nil_append] at h
  have hr : readInto ([] ++ [.fail ⟨.wouldBlock, "not ready"⟩])
      (Word.wordsToBytes (Word.allocateZeroedVec 4294967295)) 0 =
      .ret (.ok (writeAt (Word.wordsToBytes (Word.allocateZeroedVec 4294967295)) 0 [], 0)) [] :=
    readInto_wouldBlock Script.flows_nil rfl [] (by simp)
  rw [List.nil_append] at hr
  rw [show [Event.data [0, 0, 0, 0, 255, 255, 255, 255], .fail ⟨.wouldBlock, "not ready"⟩] =
    [Event.data [0, 0, 0, 0, 255, 255, 255, 255]] ++ [.fail ⟨.wouldBlock, "not ready"⟩] from rfl, h,
    readSegments, hr, Outcome.bind_ok, writeAt_nil]
  simp only [readSegments.finish, Word.bytesToWords_wordsToBytes, Word.length_allocateZeroedVec]
  rw [if_neg (by simp [usizeBound]), if_pos (by decide)]

end Capnp.Async
