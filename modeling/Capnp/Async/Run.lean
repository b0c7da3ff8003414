import Capnp.Async.Message

/-!
# What a run of the reader consumed

A caller reads a message with `read_message` and resumes each continuation it gets back, on any
streams and with any options; every call consumes bytes from its stream. This module says that
no byte is lost or read twice along such a run. `ReadContinuation.Holds k c` says what a
continuation holds of the bytes `c` a run consumed: the first word read so far, then the rest of
the table read so far, then the table and the owned space read so far; `Decodes` is the table
with the slices and the owned space it decodes to.

`Extends c read o` says that an outcome of a call on `read` goes on from `c`: its continuation
holds `c` and the bytes the call consumed, and its finished message is made of them. One lemma
per phase proves it (`extends_readSegments`, `extends_resume_segmentTableRest`,
`extends_readMessageTable`, `extends_resume_segmentTableFirst`), from `readInto_consumed` and
`try_async!`'s rule `extends_tryAsync`. `Consumed c k` is every run that holds `k` after
consuming `c`; by induction on it `Consumed.holds`. The main theorem, `consumed_eq_frame`, adds
that a message a resumption completes is a frame of all the bytes the run consumed, as
`readMessage_sound` says of a single call.
-/

set_option autoImplicit false

namespace Capnp.Async

open Io

/-- The first word `w` and the rest `tbl` of a segment table decode, as `read_message` decodes
them, to the slices `segmentSlices` of an owned space of `words` words. -/
structure Decodes (w tbl : List UInt8) (segmentSlices : List (Nat × Nat)) (words : Nat) : Prop where
  length_w : w.length = 8
  one_le : 1 ≤ tableCount w
  le_511 : tableCount w ≤ 511
  length_tbl : tbl.length = tableCount w / 2 * 8
  slices : segmentSlices = slicesFrom 0 (tableLengths w tbl)
  words : words = (tableLengths w tbl).sum

/-- The bytes `c` a run has consumed are what the continuation holds: the first word read so
far; the first word, which gives the count and the first length, and the rest of the table read
so far; or the table that decodes to the slices, and the owned space read so far. -/
def ReadContinuation.Holds : ReadContinuation → List UInt8 → Prop
  | .segmentTableFirst buf idx, c => c = buf.take idx
  | .segmentTableRest segmentCount firstSegmentLen buf idx, c =>
    ∃ w, w.length = 8 ∧ tableCount w = segmentCount ∧ readU32 (w.drop 4) = firstSegmentLen ∧
      c = w ++ buf.take idx
  | .segments segmentSlices ownedSpace idx, c =>
    ∃ w tbl, Decodes w tbl segmentSlices ownedSpace.length ∧
      c = w ++ tbl ++ (Word.wordsToBytes ownedSpace).take idx

/-- An outcome of a call on `read`, after a run consumed `c`, goes on from `c`: a continuation
holds `c` and what the call consumed, and a finished message's table and owned space are `c` and
what the call consumed. -/
def Extends (c : List UInt8) (read : Script) : Outcome AsyncRead → Prop
  | .ret (.ok (.continue k)) read' => ∃ q, read.bytes = q ++ read'.bytes ∧ k.Holds (c ++ q)
  | .ret (.ok (.complete msg)) read' => ∃ q w tbl, read.bytes = q ++ read'.bytes ∧
      Decodes w tbl msg.segmentSlices msg.ownedSpace.length ∧
      msg.segmentSlices.mapM (wordSlice msg.ownedSpace) = .ok msg.arena.segments ∧
      c ++ q = w ++ tbl ++ Word.wordsToBytes msg.ownedSpace
  | _ => True

/-- What consumed `q` after `c` extends what consumed `c ++ q`. -/
theorem Extends.of_append {c q : List UInt8} {read r : Script} {o : Outcome AsyncRead}
    (hq : read.bytes = q ++ r.bytes) (h : Extends (c ++ q) r o) : Extends c read o := by
  rcases o with ((msg | k) | _) | _
  · obtain ⟨q', w, tbl, hq', hd, hm, hc⟩ := h
    exact ⟨q ++ q', w, tbl, by rw [hq, hq', List.append_assoc], hd, hm,
      by rwa [← List.append_assoc]⟩
  · obtain ⟨q', hq', hk⟩ := h
    exact ⟨q ++ q', by rw [hq, hq', List.append_assoc], by rwa [← List.append_assoc]⟩
  all_goals trivial

/-- `try_async!` goes on from `c` when the call's continuation holds what it consumed after `c`,
and the rest of the caller goes on from there. -/
theorem extends_tryAsync {α : Type} {c : List UInt8} {read : Script}
    {x : Outcome (AsyncValue α ReadContinuation)} {k : α → Script → Outcome AsyncRead}
    (hx : ∀ k' r, x = .ret (.ok (.continue k')) r →
      ∃ q, read.bytes = q ++ r.bytes ∧ k'.Holds (c ++ q))
    (hk : ∀ a r, x = .ret (.ok (.complete a)) r →
      ∃ q, read.bytes = q ++ r.bytes ∧ Extends (c ++ q) r (k a r)) :
    Extends c read (tryAsync x k) := by
  rcases x with ((a | k') | _) | _
  · obtain ⟨q, hq, h⟩ := hk a _ rfl
    exact h.of_append hq
  · exact hx k' _ rfl
  all_goals trivial

section Phases

variable {c : List UInt8} {read : Script} {options : ReaderOptions}

theorem extends_readSegments {w tbl : List UInt8} {segmentSlices : List (Nat × Nat)}
    {ownedSpace : List Word} {idx : Nat} (hd : Decodes w tbl segmentSlices ownedSpace.length)
    (hc : c = w ++ tbl ++ (Word.wordsToBytes ownedSpace).take idx) :
    Extends c read (readSegments read options segmentSlices ownedSpace idx) := by
  rw [readSegments]
  rcases hr : readInto read (Word.wordsToBytes ownedSpace) idx with ⟨⟨b, i⟩ | e, r⟩ | p
  · obtain ⟨q, hq, rfl, rfl, hle⟩ := readInto_consumed hr
    have hlen : (writeAt (Word.wordsToBytes ownedSpace) idx q).length = 8 * ownedSpace.length := by
      simp
    have hw : (Word.bytesToWords (writeAt (Word.wordsToBytes ownedSpace) idx q)).length =
        ownedSpace.length := by simp [hlen]
    have hback := Word.wordsToBytes_bytesToWords _ ⟨ownedSpace.length, hlen⟩
    have htake : c ++ q = w ++ tbl ++
        (writeAt (Word.wordsToBytes ownedSpace) idx q).take (idx + q.length) := by
      rw [hc, take_writeAt _ _ _ hle, List.append_assoc]
    simp only [Outcome.bind_ok, readSegments.finish]
    split_ifs with h1 h2
    · trivial
    · exact ⟨q, hq, w, tbl, hw ▸ hd, by rw [hback]; exact htake⟩
    · split
      · trivial
      · refine ⟨q, w, tbl, hq, hw ▸ hd, ‹_›, ?_⟩
        rw [hback, htake, List.take_of_length_le (by simp at h2 ⊢; omega)]
  · trivial
  · trivial

/-- A table of one segment: its first word is the whole table. -/
theorem decodes_one {w : List UInt8} (hw : w.length = 8) (h1 : tableCount w = 1) :
    Decodes w [] [(0, readU32 (w.drop 4))] (readU32 (w.drop 4)) :=
  ⟨hw, by omega, by omega, by simp [h1], by simp [tableLengths, h1], by simp [tableLengths, h1]⟩

/-- A table of two segments or more, whose slice loop went through. -/
theorem decodes_of_push {w tbl : List UInt8} {totalWords : Nat} {segmentSlices : List (Nat × Nat)}
    (hw : w.length = 8) (h2 : 2 ≤ tableCount w) (h511 : tableCount w ≤ 511)
    (htbl : tbl.length = tableCount w / 2 * 8)
    (hpush : pushSegmentSlices ((chunks4 tbl).take (tableCount w - 1))
      (readU32 (w.drop 4), [(0, readU32 (w.drop 4))]) = .ok (totalWords, segmentSlices)) :
    Decodes w tbl segmentSlices totalWords := by
  obtain ⟨-, rfl, rfl⟩ := pushSegmentSlices_eq_ok hpush
  exact ⟨hw, by omega, h511, htbl, by simp [tableLengths], by simp [tableLengths]⟩

theorem extends_resume_segmentTableRest {segmentCount firstSegmentLen : Nat} {buf : List UInt8}
    {idx : Nat}
    (hk : (ReadContinuation.segmentTableRest segmentCount firstSegmentLen buf idx).WellFormed)
    (hc : (ReadContinuation.segmentTableRest segmentCount firstSegmentLen buf idx).Holds c) :
    Extends c read
      (resume read options (.segmentTableRest segmentCount firstSegmentLen buf idx)) := by
  obtain ⟨hc2, h511, hbuf, -, -, -⟩ := hk
  obtain ⟨w, hw, rfl, rfl, rfl⟩ := hc
  refine extends_tryAsync (fun k' r h => ?_) fun ⟨totalWords, segmentSlices⟩ r h => ?_
  all_goals
    rw [readSegmentTableRest] at h
    obtain ⟨⟨b, i⟩, r₀, h1, h2⟩ := Outcome.bind_eq_ok h
    obtain ⟨q, hq, rfl, rfl, hle⟩ := readInto_consumed h1
    obtain ⟨rfl, ⟨hi, hv⟩ | ⟨hfull, _, _, hpush, -, hv⟩⟩ := readSegmentTableRest_finish_eq_ok h2 <;>
      cases hv
  · exact ⟨q, hq, w, hw, rfl, rfl, by rw [take_writeAt _ _ _ hle, List.append_assoc]⟩
  · rw [length_writeAt] at hfull
    have hd : Decodes w (writeAt buf idx q) segmentSlices totalWords :=
      decodes_of_push hw hc2 h511 (by simp [hbuf]) hpush
    refine ⟨q, hq, extends_readSegments (by rwa [Word.length_allocateZeroedVec]) ?_⟩
    rw [List.take_zero, List.append_nil, List.append_assoc, ← take_writeAt _ _ _ hle,
      List.take_of_length_le (by simp; omega)]

/-- After the first word `w`, `read_message` goes on from it. -/
theorem extends_readMessageTable {w : List UInt8} (hw : w.length = 8) (h1 : 1 ≤ tableCount w)
    (h511 : tableCount w ≤ 511) :
    Extends w read (readMessageTable options (tableCount w, readU32 (w.drop 4)) read) := by
  rw [readMessageTable]
  split_ifs with hone
  · refine extends_tryAsync (fun _ _ h => nomatch h) fun _ _ h => ?_
    cases h
    exact ⟨[], by rw [List.nil_append], extends_readSegments (by
      rw [Word.length_allocateZeroedVec]; exact decodes_one hw hone) (by simp)⟩
  · split
    · exact extends_tryAsync (fun _ _ h => nomatch h) fun _ _ h => nomatch h
    · rename_i buf hbuf
      obtain rfl := createSegmentTableBuf_eq_ok hbuf
      show Extends w read (resume read options
        (.segmentTableRest _ _ (List.replicate (tableCount w / 2 * 8) 0) 0))
      exact extends_resume_segmentTableRest
        ⟨by omega, h511, by simp, by simp; omega, by simp; omega, readU32_lt _⟩
        ⟨w, hw, rfl, rfl, by simp⟩

theorem extends_resume_segmentTableFirst {buf : List UInt8} {idx : Nat}
    (hk : (ReadContinuation.segmentTableFirst buf idx).WellFormed)
    (hc : (ReadContinuation.segmentTableFirst buf idx).Holds c) :
    Extends c read (resume read options (.segmentTableFirst buf idx)) := by
  obtain ⟨hbuf, -⟩ := hk
  subst hc
  refine extends_tryAsync (fun k' r h => ?_) fun ⟨segmentCount, firstSegmentLen⟩ r h => ?_
  all_goals
    rw [readSegmentTableFirst] at h
    obtain ⟨⟨b, i⟩, r₀, h1, h2⟩ := Outcome.bind_eq_ok h
    obtain ⟨q, hq, rfl, rfl, hle⟩ := readInto_consumed h1
    obtain ⟨rfl, ⟨hi, hv⟩ | ⟨hfull, hc1, hc511, hv⟩⟩ := readSegmentTableFirst_finish_eq_ok h2 <;>
      cases hv
  · exact ⟨q, hq, (take_writeAt _ _ _ hle).symm⟩
  · rw [length_writeAt] at hfull
    have hw : buf.take idx ++ q = writeAt buf idx q := by
      rw [← take_writeAt _ _ _ hle, List.take_of_length_le (by simp; omega)]
    refine ⟨q, hq, ?_⟩
    rw [hw]
    exact extends_readMessageTable (by simp [hbuf]) hc1 hc511

/-- Resuming a well-formed continuation that holds what a run consumed goes on from it. -/
theorem extends_resume {k : ReadContinuation} (hk : k.WellFormed) (hc : k.Holds c) :
    Extends c read (resume read options k) := by
  cases k with
  | segmentTableFirst buf idx => exact extends_resume_segmentTableFirst hk hc
  | segmentTableRest segmentCount firstSegmentLen buf idx =>
    exact extends_resume_segmentTableRest hk hc
  | segments segmentSlices ownedSpace idx =>
    obtain ⟨w, tbl, hd, hc⟩ := hc
    exact extends_readSegments hd hc

theorem extends_readMessage : Extends [] read (readMessage read options) :=
  extends_resume (show (ReadContinuation.segmentTableFirst (List.replicate 8 0) 0).WellFormed from
    ⟨rfl, by decide⟩) rfl

end Phases

/-- The continuation of an outcome that goes on from `c` holds `c` and what the call consumed. -/
theorem Extends.holds {c c' : List UInt8} {read read' : Script} {o : Outcome AsyncRead}
    {k : ReadContinuation} (he : Extends c read o) (ho : o = .ret (.ok (.continue k)) read')
    (hc : read.bytes = c' ++ read'.bytes) : k.Holds (c ++ c') := by
  subst ho
  obtain ⟨q, hq, hk⟩ := he
  rwa [List.append_cancel_right (hc.symm.trans hq)]

/-- A table and the owned space it decodes to, whose slices' views are `segments`, are a frame of
`segments`. -/
theorem Decodes.eq_frame {w tbl : List UInt8} {segmentSlices : List (Nat × Nat)}
    {ownedSpace : List Word} {segments : List (List Word)}
    (hd : Decodes w tbl segmentSlices ownedSpace.length)
    (hm : segmentSlices.mapM (wordSlice ownedSpace) = .ok segments) :
    segments.length = tableCount w ∧
      ∃ pad, pad.length = 4 ∧ w ++ tbl ++ Word.wordsToBytes ownedSpace = frame pad segments := by
  have htiles := tiles_slicesFrom 0 (tableLengths w tbl)
  rw [← hd.slices, Nat.zero_add, ← hd.words] at htiles
  obtain ⟨hflat, hsl⟩ := flatten_of_mapM_wordSlice _ htiles (Nat.le_refl _) hm
  rw [List.take_length, List.drop_zero] at hflat
  rw [← hflat]
  exact frame_of_table w tbl segments hd.length_w hd.one_le hd.le_511 hd.length_tbl
    (slicesFrom_inj (hsl.symm.trans hd.slices))

/-- The bytes a run consumed while it holds a continuation: `read_message` returned it, or it
comes from resuming one, on any streams and with any options; each call consumed the bytes its
stream lost. -/
inductive Consumed : List UInt8 → ReadContinuation → Prop where
  | readMessage {read read' : Script} {options : ReaderOptions} {k : ReadContinuation}
      {c : List UInt8} :
      readMessage read options = .ret (.ok (.continue k)) read' → read.bytes = c ++ read'.bytes →
        Consumed c k
  | resume {c c' : List UInt8} {read read' : Script} {options : ReaderOptions}
      {k k' : ReadContinuation} :
      Consumed c k → resume read options k = .ret (.ok (.continue k')) read' →
        read.bytes = c' ++ read'.bytes → Consumed (c ++ c') k'

namespace Consumed

variable {c : List UInt8} {k : ReadContinuation}

theorem reachable (h : Consumed c k) : Reachable k := by
  induction h with
  | readMessage h => exact .readMessage h
  | resume _ h _ ih => exact .resume ih h

theorem holds (h : Consumed c k) : k.Holds c := by
  induction h with
  | readMessage h hc => simpa using extends_readMessage.holds h hc
  | resume hk h hc ih => exact (extends_resume hk.reachable.wellFormed ih).holds h hc

end Consumed

/-- A finished message of an outcome that goes on from `c` is a frame of `c` and what the call
consumed. -/
theorem Extends.eq_frame {c c' : List UInt8} {read read' : Script} {o : Outcome AsyncRead}
    {msg : OwnedSpaceMessageReader} (he : Extends c read o)
    (ho : o = .ret (.ok (.complete msg)) read') (hc : read.bytes = c' ++ read'.bytes) :
    1 ≤ msg.arena.segments.length ∧ msg.arena.segments.length ≤ 511 ∧
      msg.segmentSlices.mapM (wordSlice msg.ownedSpace) = .ok msg.arena.segments ∧
      ∃ pad, pad.length = 4 ∧ c ++ c' = frame pad msg.arena.segments := by
  subst ho
  obtain ⟨q, w, tbl, hq, hd, hm, hcq⟩ := he
  obtain rfl := List.append_cancel_right (hc.symm.trans hq)
  obtain ⟨hlen, pad, hpad, hframe⟩ := hd.eq_frame hm
  exact ⟨hlen ▸ hd.one_le, hlen ▸ hd.le_511, hm, pad, hpad, hcq.trans hframe⟩

/-- Over any run of `read_message` and resumptions, on any streams and with any options, no byte
is lost or read twice: every continuation holds exactly the bytes the run has consumed, and a
message a resumption completes has between one and 511 segments, its slices' views are its
segments, and the bytes the whole run consumed are a frame of them, whatever the padding. -/
theorem consumed_eq_frame :
    (∀ c k, Consumed c k → k.Holds c) ∧
    (∀ c k, Consumed c k → ∀ (read : Script) (options : ReaderOptions)
      (msg : OwnedSpaceMessageReader) (read' : Script) (c' : List UInt8),
      resume read options k = .ret (.ok (.complete msg)) read' → read.bytes = c' ++ read'.bytes →
      1 ≤ msg.arena.segments.length ∧ msg.arena.segments.length ≤ 511 ∧
        msg.segmentSlices.mapM (wordSlice msg.ownedSpace) = .ok msg.arena.segments ∧
        ∃ pad, pad.length = 4 ∧ c ++ c' = frame pad msg.arena.segments) :=
  ⟨fun _ _ h => h.holds, fun _ _ hk _ _ _ _ _ h hc =>
    (extends_resume hk.reachable.wellFormed hk.holds).eq_frame h hc⟩

/-- A run that gets the first continuation from a `WouldBlock` at once, having consumed nothing,
and then resumes it on the frame of one zero word. -/
theorem consumed_eq_frame_one_word :
    Consumed [] (.segmentTableFirst (List.replicate 8 0) 0) ∧
      (ReadContinuation.segmentTableFirst (List.replicate 8 0) 0).Holds [] ∧
      ∃ msg read', resume (Script.oneChunk (encode [[Word.zero]]) ++ []) ⟨1⟩
          (.segmentTableFirst (List.replicate 8 0) 0) = .ret (.ok (.complete msg)) read' ∧
        1 ≤ msg.arena.segments.length ∧ msg.arena.segments.length ≤ 511 ∧
        msg.segmentSlices.mapM (wordSlice msg.ownedSpace) = .ok msg.arena.segments ∧
        ∃ pad, pad.length = 4 ∧ [] ++ encode [[Word.zero]] = frame pad msg.arena.segments :=
  have hk : Consumed [] (.segmentTableFirst (List.replicate 8 0) 0) :=
    .readMessage (readMessage_wouldBlock_first ⟨1⟩ ⟨.wouldBlock, "not ready"⟩ rfl []) rfl
  have h := readMessage_encode_eq ⟨1⟩ [[Word.zero]] [] (Script.flows_oneChunk _) []
    (by simp) (by decide) (by decide) (fun h => absurd h (by decide))
  ⟨hk, consumed_eq_frame.1 _ _ hk, _, _, h,
    consumed_eq_frame.2 _ _ hk _ _ _ _ _ h (by simp [Script.bytes_skip])⟩

end Capnp.Async
