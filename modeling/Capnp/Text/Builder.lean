import Capnp.Text.Utf8

/-!
# `text::Builder`

A builder writes text into a buffer it is given, from `pos` on: `push_ascii` writes a byte,
`push_str` the bytes of a string, and `clear` zeroes what was written. `Deref` and `AsRef` read
the whole buffer back as a `&str`, with `from_utf8(..).unwrap()`: they panic unless the whole
buffer is UTF-8. `Builder::new` checks that only when `pos ≠ 0`.

`Builder.WellFormed` is the shape `Builder::new` is given: the buffer is UTF-8 and every byte
from `pos` on is NUL. A call keeps it if it is allowed (`Op.Allowed`: `push_ascii` gets an
ASCII byte, and what is pushed fits in the buffer), with the text written going as the
abstract model `Op.text` says (`step_wellFormed`); by induction so does every run of calls
(`run_wellFormed`), after which `deref` and `as_ref` return the buffer. `run_wellFormed` is
the main theorem; it states the text after a run as the bytes pushed since the start, after the
text there was, or since the last `clear`. Every other run panics at its first call that is not
allowed, as that call panics (`run_eq_ok_iff`, with `Op.panic`).

`Builder::new` checks only that a buffer said to hold text is UTF-8, and the invariant asks
more: a `pos` past the end makes `clear` panic (`new_pos_past_end`), and a `pos` inside a
character lets `push_ascii` split it, after which `deref` panics (`new_pushAscii_deref`).
-/

set_option autoImplicit false

namespace Capnp.Text

open Io

/-- The error `new_reader` and `Builder::new` return for bytes that are not UTF-8. -/
def nonUtf8Error (e : Utf8Error) : Error :=
  .decode "Text contains non-utf8 data." (some e.debug)

/-- `text::new_reader`: the bytes as text, if they are UTF-8. -/
def newReader (v : List UInt8) : Result (List UInt8) :=
  match fromUtf8 v with
  | .ok v => .ok v
  | .error e => .err (nonUtf8Error e)

/-- `text::Builder`: the buffer the text is written into, and where the text written ends. -/
structure Builder where
  bytes : List UInt8
  pos : Nat
  deriving DecidableEq, Repr

namespace Builder

/-- `Builder::new`: a builder over `bytes` whose text ends at `pos`; a buffer said to hold text
(`pos ≠ 0`) must be UTF-8. -/
def new (bytes : List UInt8) (pos : UInt32) : Result Builder :=
  if pos ≠ 0 then
    match fromUtf8 bytes with
    | .error e => .err (nonUtf8Error e)
    | .ok _ => .ok ⟨bytes, pos.toNat⟩
  else .ok ⟨bytes, pos.toNat⟩

/-- `push_ascii`: asserts that the byte is ASCII, writes it at `pos` and moves `pos` past it. -/
def pushAscii (b : Builder) (ascii : UInt8) : Except Panic Builder :=
  if ascii < 128 then do
    let bytes ← sliceSet b.bytes b.pos ascii
    let pos ← usizeAdd b.pos 1
    pure ⟨bytes, pos⟩
  else .error .assertion

/-- `push_str`: copies the string's bytes to `bytes[pos..]`, one at a time, and moves `pos`
past them. -/
def pushStr (b : Builder) (string : Str) : Except Panic Builder := do
  let bytes := string.bytes
  let buf ← forRange (copyByte b.pos bytes) 0 bytes.length b.bytes
  let pos ← usizeAdd b.pos bytes.length
  pure ⟨buf, pos⟩
where
  /-- The loop's body: `self.bytes[self.pos + ii] = bytes[ii]`. -/
  copyByte (pos : Nat) (bytes : List UInt8) (ii : Nat) (buf : List UInt8) :
      Except Panic (List UInt8) := do
    let x ← sliceIndex bytes ii
    let i ← usizeAdd pos ii
    sliceSet buf i x

/-- `clear`: zeroes `bytes[..pos]` and moves `pos` to the start. -/
def clear (b : Builder) : Except Panic Builder := do
  let buf ← forRange (fun ii buf => sliceSet buf ii 0) 0 b.pos b.bytes
  pure ⟨buf, 0⟩

/-- `Deref::deref`: the whole buffer as a `&str`. -/
def deref (b : Builder) : Except Panic (List UInt8) := unwrap (fromUtf8 b.bytes)

/-- `AsRef::as_ref`: the whole buffer as a `&str`. -/
def asRef (b : Builder) : Except Panic (List UInt8) := unwrap (fromUtf8 b.bytes)

/-- The text written: the bytes before `pos`. -/
def text (b : Builder) : List UInt8 := b.bytes.take b.pos

/-! ## What each call does -/

section Spec

variable {b : Builder}

theorem pushAscii_eq {ascii : UInt8} (h : ascii < 128) (hpos : b.pos < b.bytes.length)
    (hlen : b.bytes.length < usizeBound) :
    b.pushAscii ascii = .ok ⟨writeAt b.bytes b.pos [ascii], b.pos + 1⟩ := by
  rw [pushAscii, if_pos h, sliceSet_of_lt _ hpos, ok_bind, usizeAdd_of_lt (by omega), ok_bind,
    writeAt_singleton]
  rfl

/-- A turn of the copy loop of `push_str` inside the buffer writes one more byte of the string. -/
theorem copyByte_eq (string : Str) {i : Nat} (hi : i < string.bytes.length)
    (hpos : b.pos + i < b.bytes.length) (hlen : b.bytes.length < usizeBound) :
    pushStr.copyByte b.pos string.bytes i (writeAt b.bytes b.pos (string.bytes.take i)) =
      .ok (writeAt b.bytes b.pos (string.bytes.take (i + 1))) := by
  have hset := set_writeAt b.bytes b.pos (string.bytes.take i) string.bytes[i]
  rw [List.length_take_of_le hi.le, ← List.concat_eq_append, List.take_concat_get] at hset
  rw [pushStr.copyByte, sliceIndex_of_lt hi, ok_bind, usizeAdd_of_lt (by omega), ok_bind,
    sliceSet_of_lt _ (by rw [length_writeAt]; exact hpos), hset]

theorem pushStr_eq (string : Str) (hroom : b.pos + string.bytes.length ≤ b.bytes.length)
    (hlen : b.bytes.length < usizeBound) :
    b.pushStr string =
      .ok ⟨writeAt b.bytes b.pos string.bytes, b.pos + string.bytes.length⟩ := by
  obtain ⟨buf, hloop, hbuf⟩ := forRange_ok (pushStr.copyByte b.pos string.bytes)
    (fun ii buf => buf = writeAt b.bytes b.pos (string.bytes.take ii)) 0 string.bytes.length
    b.bytes (by simp) fun i buf _ hi (hbuf : buf = _) =>
      ⟨_, hbuf ▸ copyByte_eq string (by omega) (by omega) hlen, rfl⟩
  rw [Nat.zero_add, List.take_length] at hbuf
  rw [pushStr, hloop, ok_bind, usizeAdd_of_lt (by omega), ok_bind, hbuf]
  rfl

/-- A string with no room for it makes the copy loop write past the buffer. -/
theorem pushStr_error (string : Str) (hpos : b.pos ≤ b.bytes.length)
    (hroom : b.bytes.length < b.pos + string.bytes.length) (hlen : b.bytes.length < usizeBound) :
    b.pushStr string = .error .outOfBounds := by
  rw [pushStr, forRange_error (pushStr.copyByte b.pos string.bytes)
    (fun ii buf => buf = writeAt b.bytes b.pos (string.bytes.take ii)) 0 string.bytes.length
    b.bytes (by simp) (b.bytes.length - b.pos) (by omega)
    (fun i buf _ hi (hbuf : buf = _) =>
      ⟨_, hbuf ▸ copyByte_eq string (by omega) (by omega) hlen, rfl⟩)
    (p := .outOfBounds) fun buf (hbuf : buf = _) => by
      rw [pushStr.copyByte, sliceIndex_of_lt (by omega), ok_bind, usizeAdd_of_lt (by omega), ok_bind,
        sliceSet_of_le _ (by rw [hbuf, length_writeAt]; omega)]]
  rfl

theorem clear_eq (hpos : b.pos ≤ b.bytes.length) :
    b.clear = .ok ⟨writeAt b.bytes 0 (List.replicate b.pos 0), 0⟩ := by
  obtain ⟨buf, hloop, hbuf⟩ := forRange_ok (fun ii buf => sliceSet buf ii 0)
    (fun ii buf => buf = writeAt b.bytes 0 (List.replicate ii 0)) 0 b.pos b.bytes (by simp)
    fun i buf _ hi (hbuf : buf = _) =>
      ⟨_, sliceSet_of_lt _ (by rw [hbuf, length_writeAt]; omega), show _ = _ by
        rw [hbuf, List.replicate_succ', ← set_writeAt, List.length_replicate, Nat.zero_add]⟩
  rw [clear, hloop, ok_bind, hbuf, Nat.zero_add]
  rfl

end Spec

/-! ## The invariant -/

/-- The builder's invariant, the shape `Builder::new` is given: the buffer is a slice (its length
is a `usize`), `pos` lies in it, the buffer is UTF-8, and every byte from `pos` on is NUL. -/
structure WellFormed (b : Builder) : Prop where
  length_lt : b.bytes.length < usizeBound
  pos_le : b.pos ≤ b.bytes.length
  utf8 : Utf8 b.bytes
  zeros : ∀ x ∈ b.bytes.drop b.pos, x = 0

namespace WellFormed

variable {b : Builder} (hb : b.WellFormed)
include hb

/-- The text written is UTF-8: no character runs into the NULs after it. -/
theorem utf8_text : Utf8 b.text :=
  hb.utf8.of_append_zeros (List.take_append_drop _ _).symm hb.zeros

theorem length_text : b.text.length = b.pos := List.length_take_of_le hb.pos_le

/-- Writing UTF-8 at `pos`, where there is room for it, keeps the invariant, and the text
written grows by it. -/
theorem write {s : List UInt8} (hs : Utf8 s) (hroom : b.pos + s.length ≤ b.bytes.length) :
    (Builder.mk (writeAt b.bytes b.pos s) (b.pos + s.length)).WellFormed ∧
      (Builder.mk (writeAt b.bytes b.pos s) (b.pos + s.length)).text = b.text ++ s := by
  have hlen : (b.text ++ s).length = b.pos + s.length := by
    rw [List.length_append, hb.length_text]
  have hw : writeAt b.bytes b.pos s = (b.text ++ s) ++ b.bytes.drop (b.pos + s.length) :=
    writeAt_eq _ _ _ hroom
  have hz : ∀ x ∈ b.bytes.drop (b.pos + s.length), x = 0 := fun x hx =>
    hb.zeros x (List.mem_of_mem_drop (n := s.length) (by rwa [List.drop_drop]))
  refine ⟨⟨?_, ?_, ?_, ?_⟩, ?_⟩
  · rw [length_writeAt]
    exact hb.length_lt
  · rwa [length_writeAt]
  · rw [hw]
    exact (hb.utf8_text.append hs).append (Utf8.of_forall_eq_zero hz)
  · rwa [hw, List.drop_left' hlen]
  · show (writeAt b.bytes b.pos s).take (b.pos + s.length) = _
    rw [hw, List.take_left' hlen]

/-- Zeroing the text written leaves a buffer of NULs, with no text. -/
theorem zero :
    (Builder.mk (writeAt b.bytes 0 (List.replicate b.pos 0)) 0).WellFormed ∧
      (Builder.mk (writeAt b.bytes 0 (List.replicate b.pos 0)) 0).text = [] := by
  have hw : writeAt b.bytes 0 (List.replicate b.pos 0) =
      List.replicate b.pos 0 ++ b.bytes.drop b.pos := by
    simpa using writeAt_eq b.bytes 0 (List.replicate b.pos 0) (by simpa using hb.pos_le)
  have hz : ∀ x ∈ writeAt b.bytes 0 (List.replicate b.pos 0), x = 0 := by
    rw [hw]
    intro x hx
    rcases List.mem_append.1 hx with hx | hx
    · exact List.eq_of_mem_replicate hx
    · exact hb.zeros x hx
  exact ⟨⟨by rw [length_writeAt]; exact hb.length_lt, Nat.zero_le _, Utf8.of_forall_eq_zero hz,
    by simpa using hz⟩, List.take_zero _⟩

theorem deref : b.deref = .ok b.bytes := by
  rw [Builder.deref, fromUtf8_of_utf8 hb.utf8, unwrap_ok]

theorem asRef : b.asRef = .ok b.bytes := by
  rw [Builder.asRef, fromUtf8_of_utf8 hb.utf8, unwrap_ok]

end WellFormed

end Builder

/-! ## Runs of calls -/

/-- A call a builder's user makes. -/
inductive Op where
  | pushAscii (ascii : UInt8)
  | pushStr (string : Str)
  | clear

namespace Op

/-- The bytes a call pushes. -/
def pushed : Op → List UInt8
  | .pushAscii ascii => [ascii]
  | .pushStr string => string.bytes
  | .clear => []

def isClear : Op → Bool
  | .clear => true
  | _ => false

/-- The text a call leaves, from the text `t` before it: what the builder is for. -/
def text : Op → List UInt8 → List UInt8
  | .pushAscii ascii, t => t ++ [ascii]
  | .pushStr string, t => t ++ string.bytes
  | .clear, _ => []

/-- What a call needs to go through, on a buffer of `cap` bytes holding the text `t`: an ASCII
byte for `push_ascii`, and room for what it pushes. -/
def Allowed (cap : Nat) (t : List UInt8) : Op → Prop
  | .pushAscii ascii => ascii < 128 ∧ t.length + 1 ≤ cap
  | .pushStr string => t.length + string.bytes.length ≤ cap
  | .clear => True

/-- The panic a call that is not allowed hits: the `assert!` of `push_ascii` for a byte that is
not ASCII, and otherwise the write past the end of the buffer. -/
def panic : Op → Panic
  | .pushAscii ascii => if ascii < 128 then .outOfBounds else .assertion
  | _ => .outOfBounds

instance (cap : Nat) (t : List UInt8) : (op : Op) → Decidable (op.Allowed cap t)
  | .pushAscii _ => inferInstanceAs (Decidable (_ ∧ _))
  | .pushStr _ => inferInstanceAs (Decidable (_ ≤ _))
  | .clear => inferInstanceAs (Decidable True)

theorem text_of_isClear_false {op : Op} (h : op.isClear = false) (t : List UInt8) :
    op.text t = t ++ op.pushed := by
  cases op <;> simp_all [isClear, text, pushed]

end Op

/-- The text a run of calls leaves, from the text `t`. -/
def replay (t : List UInt8) (ops : List Op) : List UInt8 :=
  ops.foldl (fun t op => op.text t) t

/-- Every call of a run, from the text `t`, is allowed on a buffer of `cap` bytes. -/
def Allowed (cap : Nat) : List UInt8 → List Op → Prop
  | _, [] => True
  | t, op :: ops => op.Allowed cap t ∧ Allowed cap (op.text t) ops

instance decAllowed (cap : Nat) : (t : List UInt8) → (ops : List Op) → Decidable (Allowed cap t ops)
  | _, [] => inferInstanceAs (Decidable True)
  | t, op :: ops =>
    have := decAllowed cap (op.text t) ops
    inferInstanceAs (Decidable (_ ∧ _))

/-- With no `clear`, a run appends what it pushes. -/
theorem replay_of_not_clear {ops : List Op} (h : ∀ op ∈ ops, op.isClear = false)
    (t : List UInt8) : replay t ops = t ++ (ops.map Op.pushed).flatten := by
  induction ops generalizing t with
  | nil => simp [replay]
  | cons op ops ih =>
    simp only [List.forall_mem_cons] at h
    rw [replay, List.foldl_cons, ← replay, ih h.2, Op.text_of_isClear_false h.1]
    simp

/-- A `clear` forgets the text before it. -/
theorem replay_append_clear (t : List UInt8) (pre post : List Op) :
    replay t (pre ++ .clear :: post) = replay [] post := by
  rw [replay, List.foldl_append, List.foldl_cons]
  rfl

namespace Builder

/-- One call. -/
def step (b : Builder) : Op → Except Panic Builder
  | .pushAscii ascii => b.pushAscii ascii
  | .pushStr string => b.pushStr string
  | .clear => b.clear

/-- A run of calls, until the first panic. -/
def run : Builder → List Op → Except Panic Builder
  | b, [] => .ok b
  | b, op :: ops => (b.step op).bind fun b => run b ops

/-- An allowed call on a well-formed builder goes through, keeps the invariant and the buffer's
length, and leaves the text the abstract model says. -/
theorem step_wellFormed {b : Builder} (hb : b.WellFormed) {op : Op}
    (hop : op.Allowed b.bytes.length b.text) :
    ∃ b', b.step op = .ok b' ∧ b'.WellFormed ∧ b'.bytes.length = b.bytes.length ∧
      b'.text = op.text b.text := by
  cases op with
  | pushAscii ascii =>
    obtain ⟨hascii, hroom⟩ := hop
    rw [hb.length_text] at hroom
    obtain ⟨hwf, htext⟩ := hb.write (Utf8.singleton (lt_128_iff.1 hascii)) hroom
    exact ⟨_, pushAscii_eq hascii (by omega) hb.length_lt, hwf, length_writeAt .., htext⟩
  | pushStr string =>
    rw [Op.Allowed, hb.length_text] at hop
    obtain ⟨hwf, htext⟩ := hb.write string.utf8 hop
    exact ⟨_, pushStr_eq string hop hb.length_lt, hwf, length_writeAt .., htext⟩
  | clear =>
    obtain ⟨hwf, htext⟩ := hb.zero
    exact ⟨_, clear_eq hb.pos_le, hwf, length_writeAt .., htext⟩

/-- An allowed run on a well-formed builder goes through, keeps the invariant and the buffer's
length, and leaves the text the abstract model says. -/
theorem run_eq_ok {b : Builder} (hb : b.WellFormed) {ops : List Op}
    (hops : Allowed b.bytes.length b.text ops) :
    ∃ b', b.run ops = .ok b' ∧ b'.WellFormed ∧ b'.bytes.length = b.bytes.length ∧
      b'.text = replay b.text ops := by
  induction ops generalizing b with
  | nil => exact ⟨b, rfl, hb, rfl, rfl⟩
  | cons op ops ih =>
    obtain ⟨b', hstep, hb', hlen, htext⟩ := step_wellFormed hb hops.1
    obtain ⟨b'', hrun, hb'', hlen', htext'⟩ := ih hb' (by rw [hlen, htext]; exact hops.2)
    exact ⟨b'', by rw [run, hstep]; exact hrun, hb'', hlen'.trans hlen,
      htext'.trans (by rw [htext]; rfl)⟩

/-- From a builder whose buffer is UTF-8 and NUL from `pos` on, every run of `push_ascii` of
ASCII bytes, `push_str` and `clear` that stays within the buffer goes through and leaves the
buffer so, with the same length, so that `deref` and `as_ref` return it; the text is then the
text there was followed by the bytes pushed, or, after a `clear`, the bytes pushed since the
last one. -/
theorem run_wellFormed (b : Builder) (ops : List Op) (hb : b.WellFormed)
    (hops : Allowed b.bytes.length b.text ops) :
    ∃ b', b.run ops = .ok b' ∧ b'.WellFormed ∧ b'.bytes.length = b.bytes.length ∧
      b'.deref = .ok b'.bytes ∧ b'.asRef = .ok b'.bytes ∧
      ((∀ op ∈ ops, op.isClear = false) → b'.text = b.text ++ (ops.map Op.pushed).flatten) ∧
      (∀ pre post, ops = pre ++ .clear :: post → (∀ op ∈ post, op.isClear = false) →
        b'.text = (post.map Op.pushed).flatten) := by
  obtain ⟨b', hrun, hb', hlen, htext⟩ := run_eq_ok hb hops
  refine ⟨b', hrun, hb', hlen, hb'.deref, hb'.asRef, fun h => ?_, fun pre post hops' h => ?_⟩
  · rw [htext, replay_of_not_clear h]
  · rw [htext, hops', replay_append_clear, replay_of_not_clear h, List.nil_append]

/-- `é`, two bytes. -/
theorem utf8_e_acute : Utf8 [0xC3, 0xA9] := by
  simpa using Utf8.cons (Utf8Char.two (a := 0xC3) (b := 0xA9) (by decide) (by decide)
    ⟨by decide, by decide⟩) Utf8.nil

theorem run_wellFormed_hello :
    Builder.WellFormed ⟨List.replicate 4 0, 0⟩ ∧
    Allowed 4 [] [.pushAscii 0x68, .pushStr ⟨[0xC3, 0xA9], utf8_e_acute⟩, .clear, .pushAscii 0x21] ∧
    ∃ b', run ⟨List.replicate 4 0, 0⟩
        [.pushAscii 0x68, .pushStr ⟨[0xC3, 0xA9], utf8_e_acute⟩, .clear, .pushAscii 0x21] = .ok b' ∧
      b'.WellFormed ∧ b'.bytes.length = 4 ∧ b'.deref = .ok b'.bytes ∧ b'.asRef = .ok b'.bytes ∧
      ((∀ op ∈ [Op.pushAscii 0x68, .pushStr ⟨[0xC3, 0xA9], utf8_e_acute⟩, .clear, .pushAscii 0x21],
          op.isClear = false) →
        b'.text = [] ++ ([Op.pushAscii 0x68, .pushStr ⟨[0xC3, 0xA9], utf8_e_acute⟩, .clear,
          .pushAscii 0x21].map Op.pushed).flatten) ∧
      (∀ pre post, [Op.pushAscii 0x68, .pushStr ⟨[0xC3, 0xA9], utf8_e_acute⟩, .clear,
          .pushAscii 0x21] = pre ++ .clear :: post → (∀ op ∈ post, op.isClear = false) →
        b'.text = (post.map Op.pushed).flatten) :=
  have hb : Builder.WellFormed ⟨List.replicate 4 0, 0⟩ :=
    ⟨by decide, by decide, Utf8.of_forall_eq_zero (by decide), by decide⟩
  have hops : Allowed 4 [] [.pushAscii 0x68, .pushStr ⟨[0xC3, 0xA9], utf8_e_acute⟩, .clear,
      .pushAscii 0x21] := by decide
  ⟨hb, hops, run_wellFormed _ _ hb hops⟩

/-! ## Which runs panic -/

/-- A call that is not allowed panics: at the `assert!` for a byte that is not ASCII, and at the
write past the buffer for what does not fit. -/
theorem step_error {b : Builder} (hb : b.WellFormed) {op : Op}
    (hop : ¬op.Allowed b.bytes.length b.text) : b.step op = .error op.panic := by
  cases op with
  | pushAscii ascii =>
    by_cases hascii : ascii < 128
    · have hroom : ¬b.text.length + 1 ≤ b.bytes.length := fun h => hop ⟨hascii, h⟩
      rw [hb.length_text] at hroom
      rw [step, pushAscii, if_pos hascii, sliceSet_of_le _ (by omega), Op.panic, if_pos hascii]
      rfl
    · rw [step, pushAscii, if_neg hascii, Op.panic, if_neg hascii]
  | pushStr string =>
    rw [Op.Allowed, hb.length_text] at hop
    exact pushStr_error string hb.pos_le (by omega) hb.length_lt
  | clear => exact absurd trivial hop

/-- A run that goes through was allowed, call by call. -/
theorem allowed_of_run_eq_ok {b : Builder} (hb : b.WellFormed) {ops : List Op} {b' : Builder}
    (h : b.run ops = .ok b') : Allowed b.bytes.length b.text ops := by
  induction ops generalizing b with
  | nil => trivial
  | cons op ops ih =>
    by_cases hop : op.Allowed b.bytes.length b.text
    · obtain ⟨b₁, hstep, hb₁, hlen, htext⟩ := step_wellFormed hb hop
      rw [run, hstep] at h
      exact ⟨hop, by simpa [hlen, htext] using ih hb₁ h⟩
    · rw [run, step_error hb hop] at h
      cases h

/-- A run panics at its first call that is not allowed, as that call panics. -/
theorem run_eq_error {b : Builder} (hb : b.WellFormed) {pre : List Op} {op : Op} (post : List Op)
    (hpre : Allowed b.bytes.length b.text pre)
    (hop : ¬op.Allowed b.bytes.length (replay b.text pre)) :
    b.run (pre ++ op :: post) = .error op.panic := by
  induction pre generalizing b with
  | nil =>
    rw [List.nil_append, run, step_error hb hop]
    rfl
  | cons op' pre ih =>
    obtain ⟨b', hstep, hb', hlen, htext⟩ := step_wellFormed hb hpre.1
    rw [List.cons_append, run, hstep]
    exact ih hb' (by rw [hlen, htext]; exact hpre.2) (by rw [hlen, htext]; exact hop)

/-- From a well-formed builder, a run of calls goes through exactly when every call is allowed.
Every other run panics at its first call that is not allowed, as that call panics: at the
`assert!` of `push_ascii` for a byte that is not ASCII, and otherwise at the write past the end
of the buffer. -/
theorem run_eq_ok_iff (b : Builder) (ops : List Op) (hb : b.WellFormed) :
    ((∃ b', b.run ops = .ok b') ↔ Allowed b.bytes.length b.text ops) ∧
    (∀ pre op post, ops = pre ++ op :: post → Allowed b.bytes.length b.text pre →
      ¬op.Allowed b.bytes.length (replay b.text pre) → b.run ops = .error op.panic) :=
  ⟨⟨fun ⟨_, h⟩ => allowed_of_run_eq_ok hb h, fun h => (run_eq_ok hb h).imp fun _ h => h.1⟩,
    fun _ _ post h hpre hop => h ▸ run_eq_error hb post hpre hop⟩

/-- An `h`, then `é` pushed as one byte: the run stops at the `assert!`. -/
theorem run_eq_ok_iff_hello :
    Builder.WellFormed ⟨List.replicate 4 0, 0⟩ ∧
    ((∃ b', run ⟨List.replicate 4 0, 0⟩ [.pushAscii 0x68, .pushAscii 0xE9] = .ok b') ↔
      Allowed 4 [] [.pushAscii 0x68, .pushAscii 0xE9]) ∧
    run ⟨List.replicate 4 0, 0⟩ [.pushAscii 0x68, .pushAscii 0xE9] = .error .assertion :=
  have hb : Builder.WellFormed ⟨List.replicate 4 0, 0⟩ :=
    ⟨by decide, by decide, Utf8.of_forall_eq_zero (by decide), by decide⟩
  have h := run_eq_ok_iff _ [.pushAscii 0x68, .pushAscii 0xE9] hb
  ⟨hb, h.1, h.2 [.pushAscii 0x68] (.pushAscii 0xE9) [] rfl (by decide) (by decide)⟩

/-! ## `Builder::new` and `new_reader` -/

/-- `Builder::new` does not check `pos` against the buffer: over UTF-8 bytes it accepts a `pos`
past their end, and `clear` on the builder it returns then writes past the buffer. -/
theorem new_pos_past_end (bytes : List UInt8) (pos : UInt32) (hu : Utf8 bytes)
    (hpos : bytes.length < pos.toNat) :
    new bytes pos = .ok ⟨bytes, pos.toNat⟩ ∧ ∃ p, (Builder.mk bytes pos.toNat).clear = .error p := by
  have hne : pos ≠ 0 := fun h => by simp [h] at hpos
  refine ⟨by rw [new, if_pos hne, fromUtf8_of_utf8 hu], .outOfBounds, ?_⟩
  rw [clear, forRange_error (fun ii buf => sliceSet buf ii 0)
    (fun _ buf => buf.length = bytes.length) 0 pos.toNat bytes rfl bytes.length hpos
    (fun i buf _ _ (hbuf : buf.length = _) =>
      ⟨_, sliceSet_of_lt _ (by omega), (List.length_set ..).trans hbuf⟩)
    fun buf hbuf => sliceSet_of_le _ (by rw [hbuf]; omega)]
  rfl

theorem new_pos_past_end_two :
    Utf8 [0x68, 0x69] ∧ [(0x68 : UInt8), 0x69].length < (3 : UInt32).toNat ∧
    new [0x68, 0x69] 3 = .ok ⟨[0x68, 0x69], (3 : UInt32).toNat⟩ ∧
      ∃ p, (Builder.mk [0x68, 0x69] (3 : UInt32).toNat).clear = .error p :=
  have hu : Utf8 [0x68, 0x69] := (Utf8.singleton (by decide)).append (Utf8.singleton (by decide))
  ⟨hu, by decide, new_pos_past_end _ 3 hu (by decide)⟩

/-- `Builder::new` checks that a buffer said to hold text is UTF-8, not that `pos` is where a
character starts: over UTF-8 bytes with a continuation byte at `pos`, it returns a builder on
which `push_ascii` of any ASCII byte goes through, splits that character, and leaves a buffer
that `deref` panics on. -/
theorem new_pushAscii_deref (bytes : List UInt8) (pos : UInt32) (hu : Utf8 bytes)
    (hpos : pos.toNat < bytes.length) (ht : Tail bytes[pos.toNat])
    (hlen : bytes.length < usizeBound) (ascii : UInt8) (hascii : ascii < 128) :
    new bytes pos = .ok ⟨bytes, pos.toNat⟩ ∧
      ∃ b', (Builder.mk bytes pos.toNat).pushAscii ascii = .ok b' ∧ b'.deref = .error .unwrap := by
  have hne : pos ≠ 0 := by
    rintro rfl
    exact hu.not_tail_head hpos ht
  refine ⟨by rw [new, if_pos hne, fromUtf8_of_utf8 hu], _, pushAscii_eq hascii hpos hlen, ?_⟩
  obtain ⟨e, he⟩ := fromUtf8_of_not_utf8 (hu.not_set_ascii hpos ht (lt_128_iff.1 hascii))
  rw [Builder.deref, writeAt_singleton, he]
  rfl

/-- `"hé"` with `pos` on the second byte of `é`. -/
theorem new_pushAscii_deref_split :
    Utf8 [0x68, 0xC3, 0xA9] ∧ (2 : UInt32).toNat < [(0x68 : UInt8), 0xC3, 0xA9].length ∧
    Tail [(0x68 : UInt8), 0xC3, 0xA9][(2 : UInt32).toNat] ∧
    [(0x68 : UInt8), 0xC3, 0xA9].length < usizeBound ∧ (0x21 : UInt8) < 128 ∧
    new [0x68, 0xC3, 0xA9] 2 = .ok ⟨[0x68, 0xC3, 0xA9], (2 : UInt32).toNat⟩ ∧
      ∃ b', (Builder.mk [0x68, 0xC3, 0xA9] (2 : UInt32).toNat).pushAscii 0x21 = .ok b' ∧
        b'.deref = .error .unwrap :=
  have hu : Utf8 [0x68, 0xC3, 0xA9] := (Utf8.singleton (by decide)).append utf8_e_acute
  have ht : Tail [(0x68 : UInt8), 0xC3, 0xA9][(2 : UInt32).toNat] := ⟨by decide, by decide⟩
  ⟨hu, by decide, ht, by decide, by decide,
    new_pushAscii_deref _ 2 hu (by decide) ht (by decide) 0x21 (by decide)⟩

end Builder

/-- `new_reader` returns the bytes exactly when they are UTF-8; otherwise its error's detail
names an offset inside the bytes before which they are UTF-8. -/
theorem newReader_eq (v : List UInt8) :
    (Utf8 v → newReader v = .ok v) ∧
    (¬Utf8 v → ∃ e, newReader v = .err (nonUtf8Error e) ∧ e.validUpTo < v.length ∧
      Utf8 (v.take e.validUpTo)) := by
  refine ⟨fun h => by rw [newReader, fromUtf8_of_utf8 h], fun h => ?_⟩
  cases hr : runUtf8Validation v 0 with
  | ok u => exact absurd (utf8_of_runUtf8Validation hr) h
  | error e =>
    obtain ⟨-, hlt, hpre⟩ := runUtf8Validation_eq_error hr
    exact ⟨e, by rw [newReader, fromUtf8, hr], by simpa using hlt, by simpa using hpre⟩

/-- `é` is read back; a lone continuation byte is refused, with a UTF-8 prefix before the
offset the error names. -/
theorem newReader_eq_e_acute :
    newReader [0xC3, 0xA9] = .ok [0xC3, 0xA9] ∧
      ∃ e, newReader [0x80] = .err (nonUtf8Error e) ∧ e.validUpTo < [(0x80 : UInt8)].length ∧
        Utf8 ([(0x80 : UInt8)].take e.validUpTo) :=
  ⟨(newReader_eq _).1 Builder.utf8_e_acute,
    (newReader_eq _).2 fun h => h.not_tail_head (by decide) ⟨by decide, by decide⟩⟩

end Capnp.Text
