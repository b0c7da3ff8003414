import Capnp.Async.Phases
import Capnp.Async.Table

/-!
# The continuations the reader hands out, and the absence of panics

`ReadContinuation.WellFormed` is the shape of every continuation the reader can hand out;
`Reachable` is every continuation that `read_message`, or a phase resumed from a continuation
it handed out, returns, on any stream and with any options. The main theorem,
`reachable_wellFormed_no_panic`, says that every reachable continuation is well formed, and
that neither `read_message` nor the resumption of a reachable continuation panics: no slice,
`read_u32` or word view is out of bounds, and no `usize` addition, subtraction or
multiplication overflows.

`Safe o` says that `o` does not panic and that its continuation, if any, is well formed. One
lemma per phase proves it from the phase's precondition (`safe_readSegments`,
`safe_resume_segmentTableRest`, `safe_resume_segmentTableFirst`); the read they share is done
once, by `safe_bind_readInto`.

`resume_wouldBlock`: a well-formed continuation resumed on a stream with nothing ready comes
back unchanged.
-/

set_option autoImplicit false

namespace Capnp.Async

open Io

/-- The shape of the continuations the reader hands out: the buffer of the first word is a
word, the rest of a table has its buffer of whole words for `2 ≤ segment_count ≤ 511`, the
segment slices tile the owned space, whose byte length fits in `usize`, and in each the read
has stopped short of the end of its buffer. -/
def ReadContinuation.WellFormed : ReadContinuation → Prop
  | .segmentTableFirst buf idx => buf.length = 8 ∧ idx < 8
  | .segmentTableRest segmentCount firstSegmentLen buf idx =>
    2 ≤ segmentCount ∧ segmentCount ≤ 511 ∧ buf.length = segmentCount / 2 * 8 ∧
      4 * (segmentCount - 1) ≤ buf.length ∧ idx < buf.length ∧ firstSegmentLen < 2 ^ 32
  | .segments segmentSlices ownedSpace idx =>
    1 ≤ segmentSlices.length ∧ segmentSlices.length ≤ 511 ∧
      Tiles 0 segmentSlices ownedSpace.length ∧ idx < 8 * ownedSpace.length ∧
      8 * ownedSpace.length < usizeBound

/-- The continuations the reader can hand out: those `read_message` returns, and those a phase
resumed from one of them returns, on any stream and with any options. -/
inductive Reachable : ReadContinuation → Prop where
  | readMessage {read read' : Script} {options : ReaderOptions} {k : ReadContinuation} :
      readMessage read options = .ret (.ok (.continue k)) read' → Reachable k
  | resume {read read' : Script} {options : ReaderOptions} {k k' : ReadContinuation} :
      Reachable k → resume read options k = .ret (.ok (.continue k')) read' → Reachable k'

/-- An outcome that does not panic, and whose continuation, if any, is well formed. -/
def Safe : Outcome AsyncRead → Prop
  | .panic _ => False
  | .ret (.ok (.continue k)) _ => k.WellFormed
  | .ret _ _ => True

theorem Safe.ne_panic {o : Outcome AsyncRead} (h : Safe o) (p : Panic) : o ≠ .panic p := by
  rintro rfl
  exact h

theorem Safe.wellFormed {o : Outcome AsyncRead} {k : ReadContinuation} {read : Script}
    (h : Safe o) (ho : o = .ret (.ok (.continue k)) read) : k.WellFormed := by
  subst ho
  exact h

/-! ## The phases -/

/-- A phase's read from inside its buffer is safe if what follows it is, for every buffer of the
same length and every position the read can reach. -/
theorem safe_bind_readInto (read : Script) (buf : List UInt8) (idx : Nat) (hidx : idx ≤ buf.length)
    (Ψ : List UInt8 × Nat → Script → Outcome AsyncRead)
    (hΨ : ∀ b i r, b.length = buf.length → i ≤ buf.length → Safe (Ψ (b, i) r)) :
    Safe ((readInto read buf idx).bind Ψ) := by
  cases h : readInto read buf idx with
  | panic p => exact absurd h (readInto_ne_panic read hidx p)
  | ret r read' =>
    cases r with
    | err e => trivial
    | ok v =>
      obtain ⟨hb, hi⟩ := readInto_ok_bounds h
      exact hΨ v.1 v.2 read' hb hi

theorem safe_readSegments (read : Script) (options : ReaderOptions)
    (segmentSlices : List (Nat × Nat)) (ownedSpace : List Word) (idx : Nat)
    (hcount : 1 ≤ segmentSlices.length ∧ segmentSlices.length ≤ 511)
    (htiles : Tiles 0 segmentSlices ownedSpace.length) (hidx : idx ≤ 8 * ownedSpace.length)
    (hspace : 8 * ownedSpace.length < usizeBound) :
    Safe (readSegments read options segmentSlices ownedSpace idx) := by
  rw [readSegments]
  refine safe_bind_readInto _ _ _ (by simpa using hidx) _ fun b i r hb hi => ?_
  have hw : (Word.bytesToWords b).length = ownedSpace.length := by simp [hb]
  simp only [readSegments.finish, hw]
  rw [if_neg (by omega)]
  split
  · exact ⟨hcount.1, hcount.2, hw ▸ htiles, by omega, hw ▸ hspace⟩
  · obtain ⟨segments, hm⟩ := mapM_wordSlice_of_tiles _ (hw ▸ htiles) (Nat.le_refl _)
    rw [hm]
    trivial

theorem safe_resume_segmentTableRest (read : Script) (options : ReaderOptions)
    (segmentCount firstSegmentLen : Nat) (buf : List UInt8) (idx : Nat)
    (hk : (ReadContinuation.segmentTableRest segmentCount firstSegmentLen buf idx).WellFormed) :
    Safe (resume read options (.segmentTableRest segmentCount firstSegmentLen buf idx)) := by
  obtain ⟨h2, h511, hbuf, h4, hidx, hfirst⟩ := hk
  show Safe (tryAsync (readSegmentTableRest read options _ _ buf idx) _)
  rw [readSegmentTableRest, tryAsync_bind]
  refine safe_bind_readInto _ _ _ hidx.le _ fun b i r hb hi => ?_
  dsimp only
  rw [readSegmentTableRest.finish]
  by_cases hshort : i < b.length
  · rw [if_pos hshort, tryAsync_continue]
    exact ⟨h2, h511, hb.trans hbuf, by omega, by omega, hfirst⟩
  rw [if_neg hshort, if_neg (by omega)]
  obtain ⟨hc4, hn4⟩ :=
    chunks4_of_dvd b (by rw [hb, hbuf]; exact Dvd.intro (segmentCount / 2 * 2) (by omega))
  have htake : ((chunks4 b).take (segmentCount - 1)).length = segmentCount - 1 := by
    rw [List.length_take, hn4, hb, hbuf]
    omega
  have hsum := sum_readU32_le ((chunks4 b).take (segmentCount - 1))
  rw [pushSegmentSlices_of_valid _ _ _
    (fun c hc => Nat.le_of_eq (hc4 c (List.mem_of_mem_take hc)).symm)
    (by rw [htake] at hsum; simp only [usizeBound]; omega)]
  dsimp only
  split
  · trivial
  · rw [tryAsync_complete]
    have ht := tiles_slicesFrom 0 (firstSegmentLen :: ((chunks4 b).take (segmentCount - 1)).map readU32)
    simp only [slicesFrom_cons, Nat.zero_add, List.sum_cons] at ht
    refine safe_readSegments r options _ _ 0 ?_ (by simpa using ht) (Nat.zero_le _) ?_
    · simp only [List.singleton_append, List.length_cons, length_slicesFrom, List.length_map, htake]
      omega
    · rw [htake] at hsum
      simp only [Word.length_allocateZeroedVec, usizeBound]
      omega

theorem safe_resume_segmentTableFirst (read : Script) (options : ReaderOptions)
    (buf : List UInt8) (idx : Nat)
    (hk : (ReadContinuation.segmentTableFirst buf idx).WellFormed) :
    Safe (resume read options (.segmentTableFirst buf idx)) := by
  obtain ⟨hbuf, hidx⟩ := hk
  show Safe (tryAsync (readSegmentTableFirst read buf idx) _)
  rw [readSegmentTableFirst, tryAsync_bind]
  refine safe_bind_readInto _ _ _ (by omega) _ fun b i r hb hi => ?_
  dsimp only
  rw [readSegmentTableFirst.finish]
  by_cases hshort : i < b.length
  · rw [if_pos hshort, tryAsync_continue]
    exact ⟨hb.trans hbuf, by omega⟩
  simp only [if_neg hshort]
  have hfirst := readU32_lt (b.drop 4)
  split
  · trivial
  split
  · trivial
  rename_i hmany hfew
  rw [tryAsync_complete, readMessageTable]
  split
  · rw [tryAsync_complete]
    exact safe_readSegments r options _ _ 0 (by simp) ⟨rfl, Nat.zero_le _, by simp; rfl⟩
      (Nat.zero_le _) (by simp only [Word.length_allocateZeroedVec, usizeBound]; omega)
  · rename_i hone
    rw [createSegmentTableBuf, if_neg (by simp only [usizeBound]; omega)]
    exact safe_resume_segmentTableRest r options _ _ _ 0
      ⟨by omega, by omega, by simp, by simp; omega, by simp; omega, hfirst⟩

/-- Resuming a well-formed continuation is safe. -/
theorem safe_resume (read : Script) (options : ReaderOptions) {k : ReadContinuation}
    (hk : k.WellFormed) : Safe (resume read options k) := by
  cases k with
  | segmentTableFirst buf idx => exact safe_resume_segmentTableFirst read options buf idx hk
  | segmentTableRest segmentCount firstSegmentLen buf idx =>
    exact safe_resume_segmentTableRest read options segmentCount firstSegmentLen buf idx hk
  | segments segmentSlices ownedSpace idx =>
    obtain ⟨h1, h511, htiles, hidx, hspace⟩ := hk
    exact safe_readSegments read options segmentSlices ownedSpace idx ⟨h1, h511⟩ htiles hidx.le
      hspace

theorem safe_readMessage (read : Script) (options : ReaderOptions) :
    Safe (readMessage read options) := by
  rw [readMessage_eq_resume]
  exact safe_resume read options ⟨rfl, by decide⟩

theorem Reachable.wellFormed {k : ReadContinuation} (h : Reachable k) : k.WellFormed := by
  induction h with
  | readMessage h => exact (safe_readMessage _ _).wellFormed h
  | resume _ h ih => exact (safe_resume _ _ ih).wellFormed h

/-- `read_message` on a stream that answers `WouldBlock` at once returns its first
continuation, with nothing read. -/
theorem readMessage_wouldBlock_first (options : ReaderOptions) (e : Io.Error)
    (he : e.kind = .wouldBlock) (t : Script) :
    readMessage (.fail e :: t) options =
      .ret (.ok (.continue (.segmentTableFirst (List.replicate 8 0) 0))) t := by
  have h : readInto ([] ++ .fail e :: t) (List.replicate 8 0) 0 = _ :=
    readInto_wouldBlock Script.flows_nil he t (by simp)
  rw [List.nil_append] at h
  rw [readMessage, readSegmentTableFirst, h]
  rfl

/-- Every continuation the reader hands out is well formed, and neither `read_message` nor the
resumption of such a continuation panics, whatever the stream and the options. -/
theorem reachable_wellFormed_no_panic :
    (∀ k, Reachable k → k.WellFormed) ∧
    (∀ (read : Script) (options : ReaderOptions) (p : Panic), readMessage read options ≠ .panic p) ∧
    (∀ k, Reachable k →
      ∀ (read : Script) (options : ReaderOptions) (p : Panic), resume read options k ≠ .panic p) :=
  ⟨fun _ h => h.wellFormed, fun read options => (safe_readMessage read options).ne_panic,
    fun _ h read options => (safe_resume read options h.wellFormed).ne_panic⟩

/-- The first continuation is reachable and well formed, and neither a stream that ends inside
the first word nor the resumption of the first continuation on one panics. -/
theorem reachable_wellFormed_no_panic_first :
    Reachable (.segmentTableFirst (List.replicate 8 0) 0) ∧
      (ReadContinuation.segmentTableFirst (List.replicate 8 0) 0).WellFormed ∧
      readMessage [.data [1, 2]] ⟨0⟩ ≠ .panic .outOfBounds ∧
      resume [.data [1, 2, 3]] ⟨0⟩ (.segmentTableFirst (List.replicate 8 0) 0) ≠ .panic .overflow :=
  have hk : Reachable (.segmentTableFirst (List.replicate 8 0) 0) :=
    .readMessage (readMessage_wouldBlock_first ⟨0⟩ ⟨.wouldBlock, "not ready"⟩ rfl [])
  ⟨hk, reachable_wellFormed_no_panic.1 _ hk, reachable_wellFormed_no_panic.2.1 _ _ _,
    reachable_wellFormed_no_panic.2.2 _ hk _ _ _⟩

/-! ## A wake-up with nothing to read -/

/-- A well-formed continuation resumed on a stream that has nothing ready, answering only
`Interrupted` and then `WouldBlock`, comes back unchanged, and only those answers are consumed:
a spurious wake-up neither loses nor repeats a byte. -/
theorem resume_wouldBlock (options : ReaderOptions) {k : ReadContinuation} (hk : k.WellFormed)
    {p : Script} (hp : p.Flows) (hnil : p.bytes = []) {e : Io.Error} (he : e.kind = .wouldBlock)
    (t : Script) :
    resume (p ++ .fail e :: t) options k = .ret (.ok (.continue k)) t := by
  have hread : ∀ buf idx, idx < buf.length →
      readInto (p ++ .fail e :: t) buf idx = .ret (.ok (buf, idx)) t := fun buf idx h => by
    simpa [hnil] using readInto_wouldBlock hp he t (by rw [hnil]; exact h)
  cases k with
  | segmentTableFirst buf idx =>
    obtain ⟨hbuf, hidx⟩ := hk
    show tryAsync (readSegmentTableFirst _ buf idx) _ = _
    rw [readSegmentTableFirst, tryAsync_bind, hread buf idx (by omega), Outcome.bind_ok,
      readSegmentTableFirst.finish, if_pos (by omega), tryAsync_continue]
  | segmentTableRest segmentCount firstSegmentLen buf idx =>
    show tryAsync (readSegmentTableRest _ options segmentCount firstSegmentLen buf idx) _ = _
    rw [readSegmentTableRest, tryAsync_bind, hread buf idx hk.2.2.2.2.1, Outcome.bind_ok,
      readSegmentTableRest.finish, if_pos hk.2.2.2.2.1, tryAsync_continue]
  | segments segmentSlices ownedSpace idx =>
    obtain ⟨-, -, -, hidx, hspace⟩ := hk
    show readSegments _ options segmentSlices ownedSpace idx = _
    rw [readSegments, hread _ idx (by simpa using hidx), Outcome.bind_ok]
    simp only [readSegments.finish, Word.bytesToWords_wordsToBytes]
    rw [if_neg (by omega), if_pos (by omega)]

/-- The first continuation, resumed on a stream that answers `WouldBlock` at once. -/
theorem resume_wouldBlock_first :
    (ReadContinuation.segmentTableFirst (List.replicate 8 0) 0).WellFormed ∧ Script.Flows [] ∧
    Script.bytes [] = [] ∧ (Io.Error.mk .wouldBlock "not ready").kind = .wouldBlock ∧
    resume ([] ++ [.fail ⟨.wouldBlock, "not ready"⟩]) ⟨0⟩
        (.segmentTableFirst (List.replicate 8 0) 0) =
      .ret (.ok (.continue (.segmentTableFirst (List.replicate 8 0) 0))) [] :=
  have hk : (ReadContinuation.segmentTableFirst (List.replicate 8 0) 0).WellFormed := ⟨rfl, by decide⟩
  ⟨hk, Script.flows_nil, rfl, rfl, resume_wouldBlock ⟨0⟩ hk Script.flows_nil rfl rfl []⟩

end Capnp.Async
