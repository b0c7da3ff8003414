import Capnp.Word
import Capnp.Error

/-!
# The reader's data

The values the asynchronous reader passes around: `ReaderOptions`, the finished
`OwnedSpaceMessageReader`, `AsyncValue` with its two `unwrap`s, and the three shapes of
`ReadContinuation`. A call of the reader either returns a `Result` and leaves the stream where
its reads stopped, or panics at one of the bounds and overflow checks Rust makes implicitly:
`Outcome` holds both. `tryAsync` is the `try_async!` macro.
-/

set_option autoImplicit false

namespace Capnp

/-- `message::ReaderOptions`, with the limit the reader checks. -/
structure ReaderOptions where
  traversalLimitInWords : UInt64
  deriving DecidableEq, Repr

/-- `arena::ReaderArena`. The reader only builds it, with `ReaderArena::new`, from the segments
and the options; the model keeps what it is built from. -/
structure ReaderArena where
  segments : List (List Word)
  options : ReaderOptions
  deriving DecidableEq, Repr

/-- `serialize::OwnedSpaceMessageReader`: a finished message, owning its words. -/
structure OwnedSpaceMessageReader where
  options : ReaderOptions
  arena : ReaderArena
  segmentSlices : List (Nat × Nat)
  ownedSpace : List Word
  deriving DecidableEq, Repr

namespace Async

open Io

/-- `AsyncValue<T, U>`: the operation completed with a value, or it would block and must be
continued later. -/
inductive AsyncValue (α β : Type) where
  | complete (val : α)
  | «continue» (continuation : β)
  deriving DecidableEq, Repr

namespace AsyncValue

variable {α β : Type}

/-- `AsyncValue::unwrap`: the value of a completed operation; a continuation panics. -/
def unwrap : AsyncValue α β → Except Panic α
  | .complete val => .ok val
  | .continue _ => .error (.explicit "called `AsyncValue::unwrap()` on a `Continue` value")

/-- `AsyncValue::unwrap_continuation`: the continuation; a completed operation panics. -/
def unwrapContinuation : AsyncValue α β → Except Panic β
  | .complete _ =>
    .error (.explicit "called `AsyncValue::unwrap_continuation()` on a `Complete` value")
  | .continue continuation => .ok continuation

end AsyncValue

/-- `ReadContinuation`: where a read that would block stopped. -/
inductive ReadContinuation where
  /-- Reading the first word of the segment table; `idx` bytes of `buf` are read. -/
  | segmentTableFirst (buf : List UInt8) (idx : Nat)
  /-- Reading the rest of the segment table into `buf`; `idx` bytes are read. -/
  | segmentTableRest (segmentCount firstSegmentLen : Nat) (buf : List UInt8) (idx : Nat)
  /-- Reading the segments into `ownedSpace`; `idx` bytes are read. -/
  | segments (segmentSlices : List (Nat × Nat)) (ownedSpace : List Word) (idx : Nat)
  deriving DecidableEq, Repr

/-- `AsyncRead`: a finished message, or a continuation. -/
abbrev AsyncRead := AsyncValue OwnedSpaceMessageReader ReadContinuation

/-- What a call of the reader comes to: it returns a `Result`, leaving the stream at `read`, or
it panics. -/
inductive Outcome (α : Type) where
  | ret (r : Result α) (read : Script)
  | panic (p : Panic)
  deriving DecidableEq, Repr

namespace Outcome

/-- `try!`: an `Err`, like a panic, ends the caller; an `Ok` value goes on to the rest of the
caller, `k`, with the stream where the call left it. -/
def bind {α β : Type} (o : Outcome α) (k : α → Script → Outcome β) : Outcome β :=
  match o with
  | .ret (.ok val) read => k val read
  | .ret (.err e) read => .ret (.err e) read
  | .panic p => .panic p

section Bind

variable {α β : Type} (k : α → Script → Outcome β)

@[simp] theorem bind_ok (val : α) (read : Script) : (Outcome.ret (.ok val) read).bind k = k val read :=
  rfl

@[simp] theorem bind_err (e : Error) (read : Script) :
    (Outcome.ret (.err e) read : Outcome α).bind k = .ret (.err e) read := rfl

@[simp] theorem bind_panic (p : Panic) : (Outcome.panic p : Outcome α).bind k = .panic p := rfl

/-- An `Ok` after a `try!` came from an `Ok` of the call. -/
theorem bind_eq_ok {k : α → Script → Outcome β} {o : Outcome α} {v : β} {read' : Script}
    (h : o.bind k = .ret (.ok v) read') :
    ∃ a read, o = .ret (.ok a) read ∧ k a read = .ret (.ok v) read' := by
  rcases o with (_ | _) | _
  · exact ⟨_, _, rfl, h⟩
  · cases h
  · cases h

end Bind

end Outcome

/-- `try_async!`: the value of a completed call goes on to the rest of the caller, `k`; a
continuation or an error is returned from the caller at once. -/
def tryAsync {α β : Type} (x : Outcome (AsyncValue α ReadContinuation))
    (k : α → Script → Outcome (AsyncValue β ReadContinuation)) :
    Outcome (AsyncValue β ReadContinuation) :=
  match x with
  | .ret (.ok (.complete val)) read => k val read
  | .ret (.ok (.continue continuation)) read => .ret (.ok (.continue continuation)) read
  | .ret (.err e) read => .ret (.err e) read
  | .panic p => .panic p

section TryAsync

variable {α β : Type} (k : α → Script → Outcome (AsyncValue β ReadContinuation))

@[simp] theorem tryAsync_complete (val : α) (read : Script) :
    tryAsync (.ret (.ok (.complete val)) read) k = k val read := rfl

@[simp] theorem tryAsync_continue (c : ReadContinuation) (read : Script) :
    tryAsync (.ret (.ok (.continue c)) read) k = .ret (.ok (.continue c)) read := rfl

@[simp] theorem tryAsync_err (e : Error) (read : Script) :
    tryAsync (.ret (.err e) read) k = .ret (.err e) read := rfl

@[simp] theorem tryAsync_panic (p : Panic) : tryAsync (.panic p) k = .panic p := rfl

/-- `try_async!` after a `try!`: the `try!` comes first. -/
theorem tryAsync_bind {γ : Type} (o : Outcome γ)
    (f : γ → Script → Outcome (AsyncValue α ReadContinuation)) :
    tryAsync (o.bind f) k = o.bind fun c read => tryAsync (f c read) k := by
  rcases o with (_ | _) | _ <;> rfl

/-- A completed caller completed its call. -/
theorem tryAsync_eq_complete {k : α → Script → Outcome (AsyncValue β ReadContinuation)}
    {x : Outcome (AsyncValue α ReadContinuation)} {v : β} {read' : Script}
    (h : tryAsync x k = .ret (.ok (.complete v)) read') :
    ∃ a read, x = .ret (.ok (.complete a)) read ∧ k a read = .ret (.ok (.complete v)) read' := by
  rcases x with ((_ | _) | _) | _
  · exact ⟨_, _, rfl, h⟩
  all_goals cases h

/-- A continuation of a caller is its call's, or comes after the call completed. -/
theorem tryAsync_eq_continue {k : α → Script → Outcome (AsyncValue β ReadContinuation)}
    {x : Outcome (AsyncValue α ReadContinuation)} {c : ReadContinuation}
    {read' : Script} (h : tryAsync x k = .ret (.ok (.continue c)) read') :
    x = .ret (.ok (.continue c)) read' ∨
      ∃ a read, x = .ret (.ok (.complete a)) read ∧ k a read = .ret (.ok (.continue c)) read' := by
  rcases x with ((_ | _) | _) | _
  · exact .inr ⟨_, _, rfl, h⟩
  · simp only [tryAsync_continue, Outcome.ret.injEq, Result.ok.injEq, AsyncValue.continue.injEq] at h
    obtain ⟨rfl, rfl⟩ := h
    exact .inl rfl
  all_goals cases h

/-- An error of a caller of `try_async!`: the call's, or the rest's after the call completed. -/
theorem tryAsync_eq_err {k : α → Script → Outcome (AsyncValue β ReadContinuation)}
    {x : Outcome (AsyncValue α ReadContinuation)} {e : Error} {read' : Script}
    (h : tryAsync x k = .ret (.err e) read') :
    x = .ret (.err e) read' ∨
      ∃ a r, x = .ret (.ok (.complete a)) r ∧ k a r = .ret (.err e) read' := by
  rcases x with ((_ | _) | _) | _
  · exact .inr ⟨_, _, rfl, h⟩
  · cases h
  · simp only [tryAsync_err, Outcome.ret.injEq, Result.err.injEq] at h
    obtain ⟨rfl, rfl⟩ := h
    exact .inl rfl
  · cases h

end TryAsync

end Async

end Capnp
