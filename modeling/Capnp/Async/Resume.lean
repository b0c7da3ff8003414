import Capnp.Async.Phases
import Capnp.Async.Table

/-!
# Suspending and resuming a read

A caller that gets a continuation back keeps it and, once more input may be ready, resumes the
phase it names on the same stream (`resume`); `drive` is that caller's loop, with a bound on
the number of resumptions. The main theorem, `drive_readMessage_agree`, says that pausing does
not change what is read: on a stream that delivers the bytes `s` in any chunks, with any
`WouldBlock` and `Interrupted` answers between them, the caller's loop ends with the same result
as `read_message` on `s` in one chunk, and leaves the same bytes in the stream.

`PauseInsensitive P` says this of a computation `P` that reads from the stream.
`pauseInsensitive_phase` proves it for a phase, by induction on the pauses, from what the phase
does once its buffer is full; the three phases are then done from the last to the first
(`resume_segments_pauseInsensitive`, `resume_segmentTableRest_pauseInsensitive`,
`resume_segmentTableFirst_pauseInsensitive`).
-/

set_option autoImplicit false

namespace Capnp.Async

open Io

/-- A caller's loop around a read: while the result is a continuation, resume it on the same
stream, at most `fuel` times. -/
def drive (options : ReaderOptions) : Nat → Outcome AsyncRead → Outcome AsyncRead
  | fuel + 1, .ret (.ok (.continue k)) read => drive options fuel (resume read options k)
  | _, o => o

namespace Outcome

/-- Two outcomes agree when they panic alike, or return the same result and leave the same
bytes in the stream. -/
def Agree {α : Type} : Outcome α → Outcome α → Prop
  | .panic p, .panic q => p = q
  | .ret r read, .ret r' read' => r = r' ∧ read.bytes = read'.bytes
  | _, _ => False

section Agree

variable {α : Type}

@[simp] theorem agree_ret (r r' : Result α) (read read' : Script) :
    Agree (.ret r read) (.ret r' read') ↔ r = r' ∧ read.bytes = read'.bytes := Iff.rfl

@[simp] theorem agree_panic (p q : Panic) : Agree (.panic p : Outcome α) (.panic q) ↔ p = q :=
  Iff.rfl

theorem Agree.refl (o : Outcome α) : o.Agree o := by
  cases o <;> simp

/-- An outcome that agrees with a result returns that result. -/
theorem Agree.eq_ret {o : Outcome α} {r : Result α} {read : Script} (h : o.Agree (.ret r read)) :
    ∃ read', o = .ret r read' ∧ read'.bytes = read.bytes := by
  cases o with
  | ret r' read' => exact ⟨read', by rw [h.1], h.2⟩
  | panic p => exact h.elim

end Agree

end Outcome

section Drive

variable (options : ReaderOptions) (fuel : Nat)

@[simp] theorem drive_zero (o : Outcome AsyncRead) : drive options 0 o = o := by
  unfold drive; rfl

@[simp] theorem drive_panic (p : Panic) : drive options fuel (.panic p) = .panic p := by
  cases fuel <;> rfl

@[simp] theorem drive_err (e : Error) (read : Script) :
    drive options fuel (.ret (.err e) read) = .ret (.err e) read := by
  cases fuel <;> rfl

@[simp] theorem drive_complete (m : OwnedSpaceMessageReader) (read : Script) :
    drive options fuel (.ret (.ok (.complete m)) read) = .ret (.ok (.complete m)) read := by
  cases fuel <;> rfl

theorem drive_continue (k : ReadContinuation) (read : Script) :
    drive options (fuel + 1) (.ret (.ok (.continue k)) read) =
      drive options fuel (resume read options k) := rfl

end Drive

/-- Pausing does not change what `P` reads: on a stream that delivers `s` in chunks with pauses
between them, given fuel for every pause, the caller's loop around `P` agrees with `P` on `s`
in one chunk. -/
def PauseInsensitive (options : ReaderOptions) (P : Script → Outcome AsyncRead) : Prop :=
  ∀ (s : List UInt8) (script : Script) (fuel : Nat), Delivers script s → script.length ≤ fuel →
    (drive options fuel (P script)).Agree (P (Script.oneChunk s))

section Phase

variable (options : ReaderOptions)

/-! ## Steps that read nothing more -/

theorem pauseInsensitive_of_eq {P Q : Script → Outcome AsyncRead} (h : ∀ read, P read = Q read)
    (hQ : PauseInsensitive options Q) : PauseInsensitive options P := by
  rwa [show P = Q from funext h]

theorem pauseInsensitive_of_panic {P : Script → Outcome AsyncRead} (p : Panic)
    (h : ∀ read, P read = .panic p) : PauseInsensitive options P := by
  intro s script fuel _ _
  simp [h]

theorem pauseInsensitive_of_err {P : Script → Outcome AsyncRead} (e : Error)
    (h : ∀ read, P read = .ret (.err e) read) : PauseInsensitive options P := by
  intro s script fuel hd _
  simp [h, hd.bytes_eq]

theorem pauseInsensitive_of_complete {P : Script → Outcome AsyncRead} (m : OwnedSpaceMessageReader)
    (h : ∀ read, P read = .ret (.ok (.complete m)) read) : PauseInsensitive options P := by
  intro s script fuel hd _
  simp [h, hd.bytes_eq]

/-! ## One phase -/

/-- A phase whose continuations `κ` resume it, over a buffer of `n` bytes, and which goes on
with `Ψ` after its read. If what it does once the buffer is full is insensitive to pauses, so is
resuming it from any position. -/
theorem pauseInsensitive_phase (κ : List UInt8 → Nat → ReadContinuation) (n : Nat)
    (Ψ : List UInt8 × Nat → Script → Outcome AsyncRead)
    (hresume : ∀ b i read, b.length = n → i ≤ n →
      resume read options (κ b i) = (readInto read b i).bind Ψ)
    (hsuspend : ∀ b i read, b.length = n → i < n →
      Ψ (b, i) read = .ret (.ok (.continue (κ b i))) read)
    (hfull : ∀ b, b.length = n → PauseInsensitive options (Ψ (b, n)))
    (buf : List UInt8) (idx : Nat) (hbuf : buf.length = n) (hidx : idx ≤ n) :
    PauseInsensitive options fun read => resume read options (κ buf idx) := by
  intro s script fuel hd hfuel
  simp only [hresume buf idx _ hbuf hidx]
  induction fuel generalizing buf idx s script with
  | zero =>
    obtain rfl : script = [] := List.eq_nil_of_length_eq_zero (Nat.le_zero.mp hfuel)
    obtain rfl := hd.eq_nil_of_nil
    simpa using Outcome.Agree.refl _
  | succ fuel ih =>
    obtain ⟨p, rest, s', hp, rfl, rfl, hrest⟩ := hd.split
    have hlen : ∀ a, (writeAt buf idx a).length = n := fun a => by rw [length_writeAt, hbuf]
    by_cases hfit : n ≤ idx + p.bytes.length
    · -- the buffer fills within the chunks before the first pause
      have hdrest : Delivers rest s' := by
        rcases hrest with ⟨rfl, rfl⟩ | ⟨e, rest', he, rfl, hd'⟩
        · exact .nil
        · exact .pause (.inl he) hd'
      rw [readInto_full hp rest (by omega) (by omega),
        readInto_oneChunk_full _ (by omega) (by simp; omega), Outcome.bind_ok, Outcome.bind_ok,
        writeAt_append_of_le _ _ _ _ (by omega), List.drop_append_of_le_length (by omega), hbuf]
      refine hfull _ (hlen _) _ _ _ ?_ ?_
      · rw [← Script.bytes_skip]
        exact Delivers.flows_append (Script.flows_skip hp _) hdrest
      · have := Script.length_skip_le (n - idx) p
        simp only [List.length_append] at hfuel ⊢
        omega
    · rcases hrest with ⟨rfl, rfl⟩ | ⟨e, rest', he, rfl, hd'⟩
      · -- the stream ends first
        rw [List.append_nil, List.append_nil, readInto_end hp (by omega),
          readInto_oneChunk_end _ (by omega)]
        simp
      · -- a pause: the phase suspends, and the caller resumes it on the rest
        rw [readInto_wouldBlock hp he rest' (by omega), Outcome.bind_ok,
          hsuspend _ _ _ (hlen _) (by omega), drive_continue, hresume _ _ _ (hlen _) (by omega),
          readInto_oneChunk_append _ _ (by omega)]
        simp only [List.length_append, List.length_cons] at hfuel
        exact ih _ _ (hlen _) (by omega) _ _ hd' (by omega)

/-! ## The three phases, from the last -/

theorem resume_segments_pauseInsensitive (segmentSlices : List (Nat × Nat))
    (ownedSpace : List Word) (idx : Nat) (hspace : 8 * ownedSpace.length < usizeBound)
    (hidx : idx ≤ 8 * ownedSpace.length) :
    PauseInsensitive options fun read => resume read options (.segments segmentSlices ownedSpace idx) := by
  have h := pauseInsensitive_phase options (fun b i => .segments segmentSlices (Word.bytesToWords b) i)
    (8 * ownedSpace.length) (readSegments.finish options segmentSlices) ?_ ?_ ?_
    (Word.wordsToBytes ownedSpace) idx (by simp) hidx
  · simpa only [Word.bytesToWords_wordsToBytes] using h
  · intro b i read hb _
    show readSegments read options segmentSlices _ i = _
    rw [readSegments, Word.wordsToBytes_bytesToWords b (by rw [hb]; exact Dvd.intro _ rfl)]
  · intro b i read hb hi
    have hw : (Word.bytesToWords b).length * 8 = 8 * ownedSpace.length := by simp [hb]; omega
    simp only [readSegments.finish, hw]
    rw [if_neg (by omega), if_pos (by omega)]
  · intro b hb
    have hw : (Word.bytesToWords b).length * 8 = 8 * ownedSpace.length := by simp [hb]; omega
    cases hm : segmentSlices.mapM (wordSlice (Word.bytesToWords b)) with
    | error p =>
      refine pauseInsensitive_of_panic options p fun read => ?_
      simp only [readSegments.finish, hw, hm]
      rw [if_neg (by omega), if_neg (by omega)]
    | ok segments =>
      refine pauseInsensitive_of_complete options
        ⟨options, ⟨segments, options⟩, segmentSlices, Word.bytesToWords b⟩ fun read => ?_
      simp only [readSegments.finish, hw, hm]
      rw [if_neg (by omega), if_neg (by omega)]

theorem resume_segmentTableRest_pauseInsensitive (segmentCount firstSegmentLen : Nat)
    (buf : List UInt8) (idx : Nat) (hcount : segmentCount ≤ 512)
    (hfirst : firstSegmentLen < 2 ^ 32) (hidx : idx ≤ buf.length) :
    PauseInsensitive options fun read =>
      resume read options (.segmentTableRest segmentCount firstSegmentLen buf idx) := by
  refine pauseInsensitive_phase options (.segmentTableRest segmentCount firstSegmentLen)
    buf.length (fun v read => tryAsync (readSegmentTableRest.finish options segmentCount
      firstSegmentLen v read) (readMessageSegments options)) ?_ ?_ ?_ buf idx rfl hidx
  · intro b i read _ _
    show tryAsync (readSegmentTableRest read options _ _ b i) _ = _
    rw [readSegmentTableRest, tryAsync_bind]
  · intro b i read hb hi
    dsimp only
    rw [readSegmentTableRest.finish, if_pos (by omega), tryAsync_continue]
  · intro b hb
    dsimp only
    by_cases hc : segmentCount < 1
    · refine pauseInsensitive_of_panic options .overflow fun read => ?_
      rw [readSegmentTableRest.finish, if_neg (by omega), if_pos hc, tryAsync_panic]
    cases hp : pushSegmentSlices ((chunks4 b).take (segmentCount - 1))
        (firstSegmentLen, [(0, firstSegmentLen)]) with
    | error p =>
      refine pauseInsensitive_of_panic options p fun read => ?_
      simp only [readSegmentTableRest.finish, hp]
      rw [if_neg (by omega), if_neg hc, tryAsync_panic]
    | ok r =>
      obtain ⟨totalWords, segmentSlices⟩ := r
      by_cases hl : options.traversalLimitInWords.toNat < totalWords
      · refine pauseInsensitive_of_err options (messageTooLarge totalWords) fun read => ?_
        simp only [readSegmentTableRest.finish, hp]
        rw [if_neg (by omega), if_neg hc, if_pos hl, tryAsync_err]
      · have hbound : 8 * totalWords < usizeBound := by
          obtain ⟨-, rfl, -⟩ := pushSegmentSlices_eq_ok hp
          have := sum_readU32_le ((chunks4 b).take (segmentCount - 1))
          have := List.length_take_le (segmentCount - 1) (chunks4 b)
          simp only [usizeBound]
          omega
        refine pauseInsensitive_of_eq options (fun read => ?_)
          (resume_segments_pauseInsensitive options segmentSlices
            (Word.allocateZeroedVec totalWords) 0 (by simpa using hbound) (Nat.zero_le _))
        simp only [readSegmentTableRest.finish, hp]
        rw [if_neg (by omega), if_neg hc, if_neg hl, tryAsync_complete]
        rfl

theorem resume_segmentTableFirst_pauseInsensitive (buf : List UInt8) (idx : Nat)
    (hidx : idx ≤ buf.length) :
    PauseInsensitive options fun read => resume read options (.segmentTableFirst buf idx) := by
  refine pauseInsensitive_phase options .segmentTableFirst buf.length
    (fun v read => tryAsync (readSegmentTableFirst.finish v read) (readMessageTable options))
    ?_ ?_ ?_ buf idx rfl hidx
  · intro b i read _ _
    show tryAsync (readSegmentTableFirst read b i) _ = _
    rw [readSegmentTableFirst, tryAsync_bind]
  · intro b i read hb hi
    dsimp only
    rw [readSegmentTableFirst.finish, if_pos (by omega), tryAsync_continue]
  · intro b hb
    dsimp only
    have hfirst := readU32_lt (b.drop 4)
    by_cases hmany : 512 ≤ (readU32 b + 1) % 2 ^ 32
    · refine pauseInsensitive_of_err options (.decode "Too many segments."
        (some (toString ((readU32 b + 1) % 2 ^ 32)))) fun read => ?_
      rw [readSegmentTableFirst.finish, if_neg (by omega)]
      simp only [if_pos hmany, tryAsync_err]
    by_cases hfew : (readU32 b + 1) % 2 ^ 32 = 0
    · refine pauseInsensitive_of_err options (.decode "Too few segments."
        (some (toString ((readU32 b + 1) % 2 ^ 32)))) fun read => ?_
      rw [readSegmentTableFirst.finish, if_neg (by omega)]
      simp only [if_neg hmany, if_pos hfew, tryAsync_err]
    by_cases hone : (readU32 b + 1) % 2 ^ 32 = 1
    · refine pauseInsensitive_of_eq options (fun read => ?_)
        (resume_segments_pauseInsensitive options [(0, readU32 (b.drop 4))]
          (Word.allocateZeroedVec (readU32 (b.drop 4))) 0
          (by simp only [Word.length_allocateZeroedVec, usizeBound]; omega) (Nat.zero_le _))
      rw [readSegmentTableFirst.finish, if_neg (by omega)]
      simp only [if_neg hmany, if_neg hfew, tryAsync_complete, readMessageTable, if_pos hone]
      rfl
    · refine pauseInsensitive_of_eq options (fun read => ?_)
        (resume_segmentTableRest_pauseInsensitive options ((readU32 b + 1) % 2 ^ 32)
          (readU32 (b.drop 4)) (List.replicate ((readU32 b + 1) % 2 ^ 32 / 2 * 8) 0) 0 (by omega)
          hfirst (Nat.zero_le _))
      rw [readSegmentTableFirst.finish, if_neg (by omega)]
      simp only [if_neg hmany, if_neg hfew, tryAsync_complete, readMessageTable, if_neg hone,
        createSegmentTableBuf, usizeBound]
      rw [if_neg (by omega)]
      rfl

end Phase

/-- On a stream whose only answer is one chunk `s`, the empty chunk is the end of the stream. -/
theorem readMessage_oneChunk (s : List UInt8) (options : ReaderOptions) :
    readMessage [.data s] options = readMessage (Script.oneChunk s) options := by
  by_cases hs : s = []
  · subst hs
    have hdata : readInto ([] ++ [.data []]) (List.replicate 8 0) 0 = _ :=
      readInto_data_nil Script.flows_nil [] (by simp)
    have hend : readInto [] (List.replicate 8 0) 0 = _ := readInto_end Script.flows_nil (by simp)
    rw [List.nil_append] at hdata
    rw [Script.oneChunk_nil, readMessage, readMessage, readSegmentTableFirst,
      readSegmentTableFirst, hdata, hend]
  · rw [Script.oneChunk, if_neg hs]

/-- The caller's loop around `read_message` agrees with `read_message` on the bytes in one
chunk. -/
theorem drive_readMessage_agree_oneChunk (options : ReaderOptions) (s : List UInt8)
    (script : Script) (fuel : Nat) (hd : Delivers script s) (hfuel : script.length ≤ fuel) :
    (drive options fuel (readMessage script options)).Agree
      (readMessage (Script.oneChunk s) options) :=
  resume_segmentTableFirst_pauseInsensitive options (List.replicate 8 0) 0 (Nat.zero_le _) s script
    fuel hd hfuel

/-- Suspending and resuming does not change what is read: on a stream that delivers the bytes
`s` in chunks with any `WouldBlock` and `Interrupted` answers between them, the caller's loop
(`drive`, re-invoking each continuation's phase on the same stream, with fuel for every answer)
ends as `read_message` on `s` in one chunk does: the same panic, or the same result with the
same bytes left in the stream. -/
theorem drive_readMessage_agree (options : ReaderOptions) (s : List UInt8) (script : Script)
    (fuel : Nat) (hd : Delivers script s) (hfuel : script.length ≤ fuel) :
    (drive options fuel (readMessage script options)).Agree (readMessage [.data s] options) := by
  rw [readMessage_oneChunk]
  exact drive_readMessage_agree_oneChunk options s script fuel hd hfuel

/-- A two-segment message whose table is split by a `WouldBlock` after six bytes. -/
theorem drive_readMessage_agree_split_table :
    Delivers [.data [1, 0, 0, 0, 1, 0], .fail ⟨.wouldBlock, "not ready"⟩,
        .data ([0, 0, 1, 0, 0, 0, 0, 0, 0, 0] ++ List.replicate 16 7)]
      ([1, 0, 0, 0, 1, 0] ++ [0, 0, 1, 0, 0, 0, 0, 0, 0, 0] ++ List.replicate 16 7) ∧
    [Event.data [1, 0, 0, 0, 1, 0], .fail ⟨.wouldBlock, "not ready"⟩,
        .data ([0, 0, 1, 0, 0, 0, 0, 0, 0, 0] ++ List.replicate 16 7)].length ≤ 3 ∧
    (drive ⟨16⟩ 3 (readMessage [.data [1, 0, 0, 0, 1, 0], .fail ⟨.wouldBlock, "not ready"⟩,
        .data ([0, 0, 1, 0, 0, 0, 0, 0, 0, 0] ++ List.replicate 16 7)] ⟨16⟩)).Agree
      (readMessage [.data ([1, 0, 0, 0, 1, 0] ++ [0, 0, 1, 0, 0, 0, 0, 0, 0, 0] ++
        List.replicate 16 7)] ⟨16⟩) :=
  have hd : Delivers [.data [1, 0, 0, 0, 1, 0], .fail ⟨.wouldBlock, "not ready"⟩,
        .data ([0, 0, 1, 0, 0, 0, 0, 0, 0, 0] ++ List.replicate 16 7)]
      ([1, 0, 0, 0, 1, 0] ++ [0, 0, 1, 0, 0, 0, 0, 0, 0, 0] ++ List.replicate 16 7) := by
    simpa using Delivers.data (List.cons_ne_nil _ _) (.pause (.inl rfl)
      (Delivers.data (List.cons_ne_nil _ _) .nil))
  ⟨hd, by decide, drive_readMessage_agree ⟨16⟩ _ _ 3 hd (by decide)⟩

end Capnp.Async
