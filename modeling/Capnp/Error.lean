import Capnp.Io
import Mathlib.Algebra.Group.Nat.Basic

/-!
# Errors and panics

The crate's `Error` and `Result`, and what a panic of the Rust code is: a bounds or overflow
check Rust makes implicitly, an `assert!`, an `unwrap` of an `Err`, or a `panic!`. A computation that can
only panic is an `Except Panic`; the checked operations below are the ones the text builder's
loops make, each with the lemma that says when it goes through.

`usize` is 64 bits wide: `usizeBound` is the first value it cannot hold.
-/

set_option autoImplicit false

namespace Capnp

/-- `capnp::Error`: a decode error with its description and detail, or an I/O error passed on. -/
inductive Error where
  | decode (description : String) (detail : Option String)
  | io (e : Io.Error)
  deriving DecidableEq, Repr

/-- `capnp::Result`. -/
inductive Result (α : Type) where
  | ok (val : α)
  | err (e : Error)
  deriving DecidableEq, Repr

/-- The first value a 64-bit `usize` cannot hold. -/
def usizeBound : Nat := 2 ^ 64

/-- A panic of the Rust code. -/
inductive Panic where
  /-- A slice index or range out of bounds, or `read_u32` on fewer than four bytes. -/
  | outOfBounds
  /-- A `usize` addition, subtraction or multiplication that overflows (a debug build panics). -/
  | overflow
  /-- An `assert!` whose condition is false. -/
  | assertion
  /-- `Result::unwrap` on an `Err`. -/
  | unwrap
  /-- A `panic!` with its message. -/
  | explicit (message : String)
  deriving DecidableEq, Repr

/-! ## Checked operations -/

section Checked

variable {α ε : Type}

/-- `a + b` on `usize`. -/
def usizeAdd (a b : Nat) : Except Panic Nat :=
  if usizeBound ≤ a + b then .error .overflow else .ok (a + b)

/-- `xs[i]`. -/
def sliceIndex (xs : List α) (i : Nat) : Except Panic α :=
  match xs.get? i with
  | some x => .ok x
  | none => .error .outOfBounds

/-- `xs[i] = x`. -/
def sliceSet (xs : List α) (i : Nat) (x : α) : Except Panic (List α) :=
  if i < xs.length then .ok (xs.set i x) else .error .outOfBounds

/-- `for ii in start..start + count { body }`, until the first panic. -/
def forRange {σ : Type} (body : Nat → σ → Except Panic σ) : Nat → Nat → σ → Except Panic σ
  | _, 0, s => .ok s
  | start, count + 1, s => (body start s).bind (forRange body (start + 1) count)

/-- `Result::unwrap`. -/
def unwrap : Except ε α → Except Panic α
  | .ok a => .ok a
  | .error _ => .error .unwrap

theorem usizeAdd_of_lt {a b : Nat} (h : a + b < usizeBound) : usizeAdd a b = .ok (a + b) :=
  if_neg (Nat.not_le.2 h)

theorem sliceIndex_of_lt {xs : List α} {i : Nat} (h : i < xs.length) :
    sliceIndex xs i = .ok xs[i] := by
  simp [sliceIndex, List.getElem?_eq_getElem h]

theorem sliceSet_of_lt {xs : List α} {i : Nat} (x : α) (h : i < xs.length) :
    sliceSet xs i x = .ok (xs.set i x) :=
  if_pos h

theorem sliceSet_of_le {xs : List α} {i : Nat} (x : α) (h : xs.length ≤ i) :
    sliceSet xs i x = .error .outOfBounds :=
  if_neg (Nat.not_lt.2 h)

@[simp] theorem ok_bind {β : Type} (a : α) (f : α → Except ε β) : (Except.ok a >>= f) = f a := rfl

@[simp] theorem error_bind {β : Type} (e : ε) (f : α → Except ε β) :
    (Except.error e >>= f) = Except.error e := rfl

@[simp] theorem pure_eq_ok (a : α) : (pure a : Except ε α) = .ok a := rfl

@[simp] theorem unwrap_ok (a : α) : (unwrap (.ok a : Except ε α)) = .ok a := rfl

@[simp] theorem unwrap_error (e : ε) : (unwrap (.error e : Except ε α)) = .error .unwrap := rfl

/-- The loop rule: if every turn from a state with the invariant goes through to a state with
it, the loop goes through to a state with it. -/
theorem forRange_ok {σ : Type} (body : Nat → σ → Except Panic σ) (P : Nat → σ → Prop)
    (start count : Nat) (s : σ) (h0 : P start s)
    (hstep : ∀ i s, start ≤ i → i < start + count → P i s →
      ∃ s', body i s = .ok s' ∧ P (i + 1) s') :
    ∃ s', forRange body start count s = .ok s' ∧ P (start + count) s' := by
  induction count generalizing start s with
  | zero => exact ⟨s, rfl, h0⟩
  | succ count ih =>
    obtain ⟨s', hs', hP⟩ := hstep start s (Nat.le_refl _) (by omega) h0
    obtain ⟨s'', hs'', hP'⟩ := ih (start + 1) s' hP fun i s hi hi' => hstep i s (by omega) (by omega)
    refine ⟨s'', ?_, by rwa [Nat.add_right_comm, Nat.add_assoc] at hP'⟩
    rw [forRange, hs']
    exact hs''

/-- The loop panics if some turn `j` panics from a state with the invariant, every turn before
it going through and keeping the invariant; it panics as that turn does. -/
theorem forRange_error {σ : Type} (body : Nat → σ → Except Panic σ) (P : Nat → σ → Prop)
    (start count : Nat) (s : σ) (h0 : P start s) (j : Nat) (hj : j < count)
    (hstep : ∀ i s, start ≤ i → i < start + j → P i s → ∃ s', body i s = .ok s' ∧ P (i + 1) s')
    {p : Panic} (hfail : ∀ s, P (start + j) s → body (start + j) s = .error p) :
    forRange body start count s = .error p := by
  induction j generalizing start count s with
  | zero =>
    obtain ⟨count, rfl⟩ : ∃ c, count = c + 1 := ⟨count - 1, by omega⟩
    have hp := hfail s h0
    rw [Nat.add_zero] at hp
    rw [forRange, hp]
    rfl
  | succ j ih =>
    obtain ⟨count, rfl⟩ : ∃ c, count = c + 1 := ⟨count - 1, by omega⟩
    obtain ⟨s', hs', hP⟩ := hstep start s (Nat.le_refl _) (by omega) h0
    have e : start + 1 + j = start + (j + 1) := by omega
    rw [forRange, hs']
    exact ih (start + 1) count s' hP (by omega)
      (fun i s hi hi' => hstep i s (by omega) (by omega)) fun s hs => e ▸ hfail s (e ▸ hs)

end Checked

end Capnp
