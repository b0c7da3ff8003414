import Capnp.Error

/-!
# UTF-8, and the check `from_utf8` makes

`Utf8` is UTF-8 as RFC 3629 §4 defines it: a sequence of characters `Utf8Char` of one to four
bytes. `runUtf8Validation` is the check of `core::str::from_utf8`, one turn of its loop per
character, with the offset of the first character it rejects and the length of the bad sequence
there. `runUtf8Validation_eq_ok_iff` says that it accepts exactly UTF-8; the two directions
rest on one lemma each about a turn (`multibyteTail_char`, `multibyteTail_eq_ok`). `Str` is
`&str`: bytes that are UTF-8.

The text builder keeps its buffer UTF-8 with three facts: UTF-8 is closed under concatenation
(`Utf8.append`), a run of NUL bytes is UTF-8 (`Utf8.of_forall_eq_zero`), and UTF-8 followed
by NULs is UTF-8 without them (`Utf8.of_append_zeros`), since no NUL continues a character.
A character's first byte gives its length (`Utf8Char.width`), so UTF-8 decodes one way, and an
ASCII byte written over a continuation byte leaves bytes that are not UTF-8
(`Utf8.not_set_ascii`).
-/

set_option autoImplicit false

namespace Capnp.Text

/-! ## UTF-8 -/

/-- `UTF8-tail = %x80-BF`. -/
def Tail (b : UInt8) : Prop := 0x80 ≤ b ∧ b ≤ 0xBF

/-- `UTF8-char = UTF8-1 / UTF8-2 / UTF8-3 / UTF8-4`, one constructor per alternative. -/
inductive Utf8Char : List UInt8 → Prop where
  /-- `UTF8-1 = %x00-7F` -/
  | one {a : UInt8} : a ≤ 0x7F → Utf8Char [a]
  /-- `UTF8-2 = %xC2-DF UTF8-tail` -/
  | two {a b : UInt8} : 0xC2 ≤ a → a ≤ 0xDF → Tail b → Utf8Char [a, b]
  /-- `UTF8-3 = %xE0 %xA0-BF UTF8-tail` -/
  | e0 {b c : UInt8} : 0xA0 ≤ b → b ≤ 0xBF → Tail c → Utf8Char [0xE0, b, c]
  /-- `/ %xE1-EC 2( UTF8-tail )` -/
  | e1ec {a b c : UInt8} : 0xE1 ≤ a → a ≤ 0xEC → Tail b → Tail c → Utf8Char [a, b, c]
  /-- `/ %xED %x80-9F UTF8-tail` -/
  | ed {b c : UInt8} : 0x80 ≤ b → b ≤ 0x9F → Tail c → Utf8Char [0xED, b, c]
  /-- `/ %xEE-EF 2( UTF8-tail )` -/
  | eeef {a b c : UInt8} : 0xEE ≤ a → a ≤ 0xEF → Tail b → Tail c → Utf8Char [a, b, c]
  /-- `UTF8-4 = %xF0 %x90-BF 2( UTF8-tail )` -/
  | f0 {b c d : UInt8} : 0x90 ≤ b → b ≤ 0xBF → Tail c → Tail d → Utf8Char [0xF0, b, c, d]
  /-- `/ %xF1-F3 3( UTF8-tail )` -/
  | f1f3 {a b c d : UInt8} : 0xF1 ≤ a → a ≤ 0xF3 → Tail b → Tail c → Tail d →
      Utf8Char [a, b, c, d]
  /-- `/ %xF4 %x80-8F 2( UTF8-tail )` -/
  | f4 {b c d : UInt8} : 0x80 ≤ b → b ≤ 0x8F → Tail c → Tail d → Utf8Char [0xF4, b, c, d]

/-- `UTF8-octets = *( UTF8-char )`. -/
inductive Utf8 : List UInt8 → Prop where
  | nil : Utf8 []
  | cons {c rest : List UInt8} : Utf8Char c → Utf8 rest → Utf8 (c ++ rest)

/-- Every byte of a character after its first is a continuation byte. -/
theorem Utf8Char.tail_of_mem {x : UInt8} {t : List UInt8} (hc : Utf8Char (x :: t)) :
    ∀ y ∈ t, Tail y := by
  have le := @UInt8.le_trans
  cases hc with
  | one => simp
  | two _ _ hb => simpa using hb
  | e0 hb hb' hc => simpa using And.intro (⟨le (by decide) hb, hb'⟩ : Tail _) hc
  | e1ec _ _ hb hc | eeef _ _ hb hc => simpa using And.intro hb hc
  | ed hb hb' hc => simpa using And.intro (⟨hb, le hb' (by decide)⟩ : Tail _) hc
  | f0 hb hb' hc hd => simpa using And.intro (⟨le (by decide) hb, hb'⟩ : Tail _) (And.intro hc hd)
  | f1f3 _ _ hb hc hd => simpa using And.intro hb (And.intro hc hd)
  | f4 hb hb' hc hd => simpa using And.intro (⟨hb, le hb' (by decide)⟩ : Tail _) (And.intro hc hd)

/-- No byte of a character after its first is ASCII. -/
theorem Utf8Char.ascii_not_mem_tail {c : List UInt8} (hc : Utf8Char c) {a : UInt8}
    (ha : a ≤ 0x7F) : a ∉ c.tail := by
  obtain ⟨x, t, rfl⟩ : ∃ x t, c = x :: t := by cases hc <;> exact ⟨_, _, rfl⟩
  exact fun h => absurd (UInt8.le_trans (hc.tail_of_mem a h).1 ha) (by decide)

/-- A character's first byte is no continuation byte. -/
theorem Utf8Char.not_tail_head {x : UInt8} {t : List UInt8} (hc : Utf8Char (x :: t)) :
    ¬Tail x := by
  rintro ⟨h1, h2⟩
  have le := @UInt8.le_trans
  cases hc with
  | one ha => exact absurd (le h1 ha) (by decide)
  | two ha => exact absurd (le ha h2) (by decide)
  | e0 | ed | f0 | f4 => exact absurd h2 (by decide)
  | e1ec ha | eeef ha | f1f3 ha => exact absurd (le ha h2) (by decide)

namespace Utf8

theorem append {a b : List UInt8} (ha : Utf8 a) (hb : Utf8 b) : Utf8 (a ++ b) := by
  induction ha with
  | nil => exact hb
  | cons hc _ ih => rw [List.append_assoc]; exact .cons hc ih

/-- An ASCII byte is a character. -/
theorem singleton {a : UInt8} (h : a ≤ 0x7F) : Utf8 [a] := by
  simpa using Utf8.cons (Utf8Char.one h) .nil

/-- A run of NUL bytes is UTF-8. -/
theorem of_forall_eq_zero {z : List UInt8} (hz : ∀ x ∈ z, x = 0) : Utf8 z := by
  induction z with
  | nil => exact .nil
  | cons x z ih =>
    rw [hz x (List.mem_cons_self x z)]
    exact (singleton (by decide)).append (ih fun y hy => hz y (List.mem_cons_of_mem x hy))

/-- UTF-8 followed by NULs is UTF-8 without them: a NUL never continues a character. -/
theorem of_append_zeros {l : List UInt8} (h : Utf8 l) :
    ∀ {a z : List UInt8}, l = a ++ z → (∀ x ∈ z, x = 0) → Utf8 a := by
  induction h with
  | nil =>
    intro a z h _
    rw [(List.append_eq_nil.1 h.symm).1]
    exact .nil
  | @cons c rest hc _ ih =>
    intro a z h hz
    rcases List.append_eq_append_iff.1 h with ⟨a', rfl, hrest⟩ | ⟨c', rfl, rfl⟩
    · exact .cons hc (ih hrest hz)
    · match a, c' with
      | a, [] => simpa using Utf8.cons hc .nil
      | [], _ :: _ => exact .nil
      | _ :: _, x :: _ =>
        rw [hz x (List.mem_cons_self x _)] at hc
        exact absurd (by simp) (hc.ascii_not_mem_tail (a := 0) (by decide))

end Utf8

/-! ## `from_utf8` -/

/-- `core::str::Utf8Error`: the offset of the longest UTF-8 prefix, and the length of the bad
sequence after it, `None` when the input ends inside a character. -/
structure Utf8Error where
  validUpTo : Nat
  errorLen : Option Nat
  deriving DecidableEq, Repr

/-- `format!("{:?}", e)`: the `Debug` form `Utf8Error` derives. -/
def Utf8Error.debug (e : Utf8Error) : String :=
  "Utf8Error \x7b valid_up_to: " ++ toString e.validUpTo ++ ", error_len: " ++
    (match e.errorLen with
      | some n => "Some(" ++ toString n ++ ")"
      | none => "None") ++ " \x7d"

/-- `utf8_char_width`: the length of the character a byte starts, 0 if it starts none (the
table `UTF8_CHAR_WIDTH`, by ranges). -/
def utf8CharWidth (b : UInt8) : Nat :=
  if b < 0x80 then 1 else if b < 0xC2 then 0 else if b < 0xE0 then 2
  else if b < 0xF0 then 3 else if b < 0xF5 then 4 else 0

/-- `b as i8`. -/
def asI8 (b : UInt8) : Int := b.toBitVec.toInt

/-- The patterns of `match (first, next!())` for a character of three bytes. -/
def secondByteOk3 (first second : UInt8) : Bool :=
  first = 0xE0 && 0xA0 ≤ second && second ≤ 0xBF ||
  0xE1 ≤ first && first ≤ 0xEC && 0x80 ≤ second && second ≤ 0xBF ||
  first = 0xED && 0x80 ≤ second && second ≤ 0x9F ||
  0xEE ≤ first && first ≤ 0xEF && 0x80 ≤ second && second ≤ 0xBF

/-- The patterns of `match (first, next!())` for a character of four bytes. -/
def secondByteOk4 (first second : UInt8) : Bool :=
  first = 0xF0 && 0x90 ≤ second && second ≤ 0xBF ||
  0xF1 ≤ first && first ≤ 0xF3 && 0x80 ≤ second && second ≤ 0xBF ||
  first = 0xF4 && 0x80 ≤ second && second ≤ 0x8F

/-- `next!()` in the turn at the character at `index`: the byte `i + 1` places after its first,
from the bytes `rest` after the first; an error with no length if the input ends first. -/
def next (index : Nat) (rest : List UInt8) (i : Nat) : Except Utf8Error UInt8 :=
  match rest[i]? with
  | some b => .ok b
  | none => .error ⟨index, none⟩

/-- The turn of `run_utf8_validation`'s loop at a byte `first ≥ 128` at `index`, with the bytes
`rest` after it: how many more bytes the character takes, or the error, whose length counts
the bytes read of the character when the last of them is wrong. -/
def multibyteTail (index : Nat) (first : UInt8) (rest : List UInt8) : Except Utf8Error Nat :=
  let err (errorLen : Nat) : Except Utf8Error Nat := .error ⟨index, some errorLen⟩
  match utf8CharWidth first with
  | 2 => do
    let second ← next index rest 0
    if asI8 second ≥ -64 then err 1 else pure 1
  | 3 => do
    let second ← next index rest 0
    if !secondByteOk3 first second then err 1 else do
    let third ← next index rest 1
    if asI8 third ≥ -64 then err 2 else pure 2
  | 4 => do
    let second ← next index rest 0
    if !secondByteOk4 first second then err 1 else do
    let third ← next index rest 1
    if asI8 third ≥ -64 then err 2 else do
    let fourth ← next index rest 2
    if asI8 fourth ≥ -64 then err 3 else pure 3
  | _ => err 1

/-- `run_utf8_validation`, from the character at `index`: an ASCII byte is a character of its
own, any other starts one of `multibyteTail` more bytes. (The word-at-a-time path over ASCII
skips only ASCII bytes, as the one-byte turn does.) -/
def runUtf8Validation (v : List UInt8) (index : Nat) : Except Utf8Error Unit :=
  match v with
  | [] => .ok ()
  | first :: rest =>
    if first < 128 then runUtf8Validation rest (index + 1)
    else match multibyteTail index first rest with
      | .ok k => runUtf8Validation (rest.drop k) (index + 1 + k)
      | .error e => .error e
termination_by v.length

/-- `core::str::from_utf8`: the bytes as a `&str`, or the first error. -/
def fromUtf8 (v : List UInt8) : Except Utf8Error (List UInt8) :=
  match runUtf8Validation v 0 with
  | .ok () => .ok v
  | .error e => .error e

/-! ## The check accepts exactly UTF-8 -/

section Bytes

variable {a b : UInt8}

theorem tail_iff_asI8 : Tail b ↔ ¬asI8 b ≥ -64 := by
  show 0x80 ≤ b.toBitVec.toNat ∧ b.toBitVec.toNat ≤ 0xBF ↔ _
  rw [asI8, BitVec.toInt_eq_toNat_cond]
  split_ifs <;> omega

/-- `utf8CharWidth` over the byte's value. -/
theorem utf8CharWidth_eq_toNat : utf8CharWidth a =
    if a.toNat < 0x80 then 1 else if a.toNat < 0xC2 then 0 else if a.toNat < 0xE0 then 2
    else if a.toNat < 0xF0 then 3 else if a.toNat < 0xF5 then 4 else 0 := rfl

theorem utf8CharWidth_eq_two : utf8CharWidth a = 2 ↔ 0xC2 ≤ a ∧ a ≤ 0xDF := by
  show _ ↔ 0xC2 ≤ a.toNat ∧ a.toNat ≤ 0xDF
  rw [utf8CharWidth_eq_toNat]
  repeat' split
  all_goals omega

theorem utf8CharWidth_eq_three : utf8CharWidth a = 3 ↔ 0xE0 ≤ a ∧ a ≤ 0xEF := by
  show _ ↔ 0xE0 ≤ a.toNat ∧ a.toNat ≤ 0xEF
  rw [utf8CharWidth_eq_toNat]
  repeat' split
  all_goals omega

theorem utf8CharWidth_eq_four : utf8CharWidth a = 4 ↔ 0xF0 ≤ a ∧ a ≤ 0xF4 := by
  show _ ↔ 0xF0 ≤ a.toNat ∧ a.toNat ≤ 0xF4
  rw [utf8CharWidth_eq_toNat]
  repeat' split
  all_goals omega

theorem utf8CharWidth_eq_one : utf8CharWidth a = 1 ↔ a < 128 := by
  show _ ↔ a.toNat < 128
  rw [utf8CharWidth_eq_toNat]
  repeat' split
  all_goals omega

theorem utf8CharWidth_le_four (a : UInt8) : utf8CharWidth a ≤ 4 := by
  rw [utf8CharWidth_eq_toNat]
  repeat' split
  all_goals omega

theorem lt_128_iff : a < 128 ↔ a ≤ 0x7F := by
  show a.toNat < 128 ↔ a.toNat ≤ 0x7F
  omega

/-- The first two bytes of a character of three bytes, and a continuation byte, make one. -/
theorem utf8Char_of_secondByteOk3 {c : UInt8} (hs : secondByteOk3 a b = true) (hc : Tail c) :
    Utf8Char [a, b, c] := by
  simp only [secondByteOk3, Bool.or_eq_true, Bool.and_eq_true, decide_eq_true_eq] at hs
  rcases hs with ((⟨⟨rfl, h3⟩, h4⟩ | ⟨⟨⟨h3, h4⟩, h5⟩, h6⟩) | ⟨⟨rfl, h3⟩, h4⟩) | ⟨⟨⟨h3, h4⟩, h5⟩, h6⟩
  · exact .e0 h3 h4 hc
  · exact .e1ec h3 h4 ⟨h5, h6⟩ hc
  · exact .ed h3 h4 hc
  · exact .eeef h3 h4 ⟨h5, h6⟩ hc

/-- The first two bytes of a character of four bytes, and two continuation bytes, make one. -/
theorem utf8Char_of_secondByteOk4 {c d : UInt8} (hs : secondByteOk4 a b = true) (hc : Tail c)
    (hd : Tail d) : Utf8Char [a, b, c, d] := by
  simp only [secondByteOk4, Bool.or_eq_true, Bool.and_eq_true, decide_eq_true_eq] at hs
  rcases hs with (⟨⟨rfl, h4⟩, h5⟩ | ⟨⟨⟨h4, h5⟩, h6⟩, h7⟩) | ⟨⟨rfl, h4⟩, h5⟩
  · exact .f0 h4 h5 hc hd
  · exact .f1f3 h4 h5 ⟨h6, h7⟩ hc hd
  · exact .f4 h4 h5 hc hd

end Bytes

section Turn

variable {index : Nat} {first : UInt8} {rest : List UInt8}

theorem next_bind_eq_ok {α : Type} {i : Nat} {f : UInt8 → Except Utf8Error α} {a : α}
    (h : (next index rest i >>= f) = .ok a) : ∃ b, rest[i]? = some b ∧ f b = .ok a := by
  unfold next at h
  split at h
  · exact ⟨_, ‹_›, h⟩
  · cases h

theorem multibyteTail_two {b : UInt8} (hw : utf8CharWidth first = 2) (hb : Tail b)
    (rest : List UInt8) : multibyteTail index first (b :: rest) = .ok 1 := by
  simp only [multibyteTail, hw, next, List.getElem?_cons_zero, ok_bind,
    if_neg (tail_iff_asI8.1 hb), pure_eq_ok]

theorem multibyteTail_three {b c : UInt8} (hw : utf8CharWidth first = 3)
    (hs : secondByteOk3 first b = true) (hc : Tail c) (rest : List UInt8) :
    multibyteTail index first (b :: c :: rest) = .ok 2 := by
  simp only [multibyteTail, hw, next, List.getElem?_cons_zero, List.getElem?_cons_succ, ok_bind,
    hs, Bool.not_true, Bool.false_eq_true, if_false, if_neg (tail_iff_asI8.1 hc), pure_eq_ok]

theorem multibyteTail_four {b c d : UInt8} (hw : utf8CharWidth first = 4)
    (hs : secondByteOk4 first b = true) (hc : Tail c) (hd : Tail d) (rest : List UInt8) :
    multibyteTail index first (b :: c :: d :: rest) = .ok 3 := by
  simp only [multibyteTail, hw, next, List.getElem?_cons_zero, List.getElem?_cons_succ, ok_bind,
    hs, Bool.not_true, Bool.false_eq_true, if_false, if_neg (tail_iff_asI8.1 hc),
    if_neg (tail_iff_asI8.1 hd), pure_eq_ok]

/-- A character of two to four bytes is one turn of the loop. -/
theorem multibyteTail_char {tl : List UInt8} (hc : Utf8Char (first :: tl)) (h : ¬first < 128)
    (rest : List UInt8) : multibyteTail index first (tl ++ rest) = .ok tl.length := by
  have le := @UInt8.le_trans
  cases hc with
  | one ha => exact absurd (lt_128_iff.2 ha) h
  | two ha ha' hb => exact multibyteTail_two (utf8CharWidth_eq_two.2 ⟨ha, ha'⟩) hb _
  | e0 hb hb' hc => exact multibyteTail_three (by rfl) (by simp [secondByteOk3, hb, hb']) hc _
  | e1ec ha ha' hb hc =>
    exact multibyteTail_three (utf8CharWidth_eq_three.2 ⟨le (by decide) ha, le ha' (by decide)⟩)
      (by simp [secondByteOk3, ha, ha', hb.1, hb.2]) hc _
  | ed hb hb' hc => exact multibyteTail_three (by rfl) (by simp [secondByteOk3, hb, hb']) hc _
  | eeef ha ha' hb hc =>
    exact multibyteTail_three (utf8CharWidth_eq_three.2 ⟨le (by decide) ha, ha'⟩)
      (by simp [secondByteOk3, ha, ha', hb.1, hb.2]) hc _
  | f0 hb hb' hc hd => exact multibyteTail_four (by rfl) (by simp [secondByteOk4, hb, hb']) hc hd _
  | f1f3 ha ha' hb hc hd =>
    exact multibyteTail_four (utf8CharWidth_eq_four.2 ⟨le (by decide) ha, le ha' (by decide)⟩)
      (by simp [secondByteOk4, ha, ha', hb.1, hb.2]) hc hd _
  | f4 hb hb' hc hd => exact multibyteTail_four (by rfl) (by simp [secondByteOk4, hb, hb']) hc hd _

/-- A turn that goes through has read a character. -/
theorem multibyteTail_eq_ok {k : Nat} (h : multibyteTail index first rest = .ok k) :
    Utf8Char (first :: rest.take k) := by
  unfold multibyteTail at h
  split at h
  · rename_i hw
    obtain ⟨b, hb, h⟩ := next_bind_eq_ok h
    split_ifs at h with h1
    cases h
    rw [show rest.take 1 = [b] by simp [List.take_succ, hb]]
    exact .two (utf8CharWidth_eq_two.1 hw).1 (utf8CharWidth_eq_two.1 hw).2 (tail_iff_asI8.2 h1)
  · obtain ⟨b, hb, h⟩ := next_bind_eq_ok h
    split_ifs at h with h1
    obtain ⟨c, hc, h⟩ := next_bind_eq_ok h
    split_ifs at h with h2
    cases h
    rw [show rest.take 2 = [b, c] by simp [List.take_succ, hb, hc]]
    exact utf8Char_of_secondByteOk3 (by simpa using h1) (tail_iff_asI8.2 h2)
  · obtain ⟨b, hb, h⟩ := next_bind_eq_ok h
    split_ifs at h with h1
    obtain ⟨c, hc, h⟩ := next_bind_eq_ok h
    split_ifs at h with h2
    obtain ⟨d, hd, h⟩ := next_bind_eq_ok h
    split_ifs at h with h3
    cases h
    rw [show rest.take 3 = [b, c, d] by simp [List.take_succ, hb, hc, hd]]
    exact utf8Char_of_secondByteOk4 (by simpa using h1) (tail_iff_asI8.2 h2) (tail_iff_asI8.2 h3)
  · cases h

/-- Every error of a turn names the character's offset. -/
theorem multibyteTail_validUpTo {e : Utf8Error} (h : multibyteTail index first rest = .error e) :
    e.validUpTo = index := by
  simp only [multibyteTail, next] at h
  split at h <;> (repeat' (first | split at h | simp only [ok_bind, error_bind] at h)) <;>
    (cases h <;> rfl)

end Turn

/-- A character that starts with an ASCII byte is that byte. -/
theorem Utf8Char.eq_nil_of_lt_128 {first : UInt8} {tl : List UInt8}
    (hc : Utf8Char (first :: tl)) (h : first < 128) : tl = [] := by
  cases hc <;> simp_all [lt_128_iff, UInt8.le_def, BitVec.le_def] <;> omega

/-- A character's bytes take `run_utf8_validation` past it. -/
theorem runUtf8Validation_char_append {c : List UInt8} (hc : Utf8Char c) (rest : List UInt8)
    (index : Nat) :
    runUtf8Validation (c ++ rest) index = runUtf8Validation rest (index + c.length) := by
  obtain ⟨first, tl, rfl⟩ : ∃ first tl, c = first :: tl := by cases hc <;> exact ⟨_, _, rfl⟩
  rw [List.cons_append, runUtf8Validation]
  split_ifs with h
  · rw [hc.eq_nil_of_lt_128 h]
    rfl
  · simp only [multibyteTail_char hc h, List.drop_left, List.length_cons]
    rw [Nat.add_assoc, Nat.add_comm 1]

theorem runUtf8Validation_of_utf8 {v : List UInt8} (hv : Utf8 v) (index : Nat) :
    runUtf8Validation v index = .ok () := by
  induction hv generalizing index with
  | nil => rw [runUtf8Validation]
  | cons hc _ ih => rw [runUtf8Validation_char_append hc, ih]

theorem utf8_of_runUtf8Validation {v : List UInt8} {index : Nat}
    (h : runUtf8Validation v index = .ok ()) : Utf8 v := by
  induction v, index using runUtf8Validation.induct with
  | case1 => exact .nil
  | case2 index first rest h128 ih =>
    rw [runUtf8Validation, if_pos h128] at h
    exact .cons (c := [first]) (.one (lt_128_iff.1 h128)) (ih h)
  | case3 index first rest h128 k hk ih =>
    rw [runUtf8Validation, if_neg h128, hk] at h
    rw [← List.take_append_drop k rest]
    exact .cons (c := first :: rest.take k) (multibyteTail_eq_ok hk) (ih h)
  | case4 index first rest h128 e he =>
    rw [runUtf8Validation, if_neg h128, he] at h
    cases h

/-- An error of `run_utf8_validation` names the offset of a character in the input, and the
bytes before it are UTF-8. -/
theorem runUtf8Validation_eq_error {v : List UInt8} {index : Nat} {e : Utf8Error}
    (h : runUtf8Validation v index = .error e) :
    index ≤ e.validUpTo ∧ e.validUpTo < index + v.length ∧
      Utf8 (v.take (e.validUpTo - index)) := by
  induction v, index using runUtf8Validation.induct with
  | case1 => rw [runUtf8Validation] at h; cases h
  | case2 index first rest h128 ih =>
    rw [runUtf8Validation, if_pos h128] at h
    obtain ⟨h1, h2, h3⟩ := ih h
    refine ⟨by omega, by simp only [List.length_cons]; omega, ?_⟩
    rw [show e.validUpTo - index = e.validUpTo - (index + 1) + 1 by omega, List.take_succ_cons]
    exact .cons (c := [first]) (.one (lt_128_iff.1 h128)) h3
  | case3 index first rest h128 k hk ih =>
    rw [runUtf8Validation, if_neg h128, hk] at h
    obtain ⟨h1, h2, h3⟩ := ih h
    rw [List.length_drop] at h2
    refine ⟨by omega, by simp only [List.length_cons]; omega, ?_⟩
    rw [show e.validUpTo - index = k + (e.validUpTo - (index + 1 + k)) + 1 by omega,
      List.take_succ_cons, List.take_add]
    exact .cons (c := first :: rest.take k) (multibyteTail_eq_ok hk) h3
  | case4 index first rest h128 e' he =>
    rw [runUtf8Validation, if_neg h128, he] at h
    cases h
    rw [multibyteTail_validUpTo he, Nat.sub_self, List.take_zero]
    exact ⟨le_rfl, by simp, .nil⟩

/-- `run_utf8_validation` accepts exactly UTF-8. -/
theorem runUtf8Validation_eq_ok_iff (v : List UInt8) (index : Nat) :
    runUtf8Validation v index = .ok () ↔ Utf8 v :=
  ⟨utf8_of_runUtf8Validation, fun h => runUtf8Validation_of_utf8 h index⟩

theorem fromUtf8_of_utf8 {v : List UInt8} (h : Utf8 v) : fromUtf8 v = .ok v := by
  rw [fromUtf8, runUtf8Validation_of_utf8 h]

theorem fromUtf8_of_not_utf8 {v : List UInt8} (h : ¬Utf8 v) : ∃ e, fromUtf8 v = .error e := by
  unfold fromUtf8
  split
  · exact absurd (utf8_of_runUtf8Validation ‹_›) h
  · exact ⟨_, rfl⟩

/-! ## Decoding is unique -/

/-- A character's first byte gives its length. -/
theorem Utf8Char.width {x : UInt8} {t : List UInt8} (hc : Utf8Char (x :: t)) :
    utf8CharWidth x = t.length + 1 := by
  have le := @UInt8.le_trans
  cases hc with
  | one ha => exact if_pos (lt_128_iff.2 ha)
  | two ha ha' => exact utf8CharWidth_eq_two.2 ⟨ha, ha'⟩
  | e0 | ed | f0 | f4 => rfl
  | e1ec ha ha' => exact utf8CharWidth_eq_three.2 ⟨le (by decide) ha, le ha' (by decide)⟩
  | eeef ha ha' => exact utf8CharWidth_eq_three.2 ⟨le (by decide) ha, ha'⟩
  | f1f3 ha ha' => exact utf8CharWidth_eq_four.2 ⟨le (by decide) ha, le ha' (by decide)⟩

/-- Two characters at the start of the same bytes are the same. -/
theorem Utf8Char.eq_of_append_eq {c c' r r' : List UInt8} (hc : Utf8Char c) (hc' : Utf8Char c')
    (h : c ++ r = c' ++ r') : c = c' ∧ r = r' := by
  obtain ⟨x, t, rfl⟩ : ∃ x t, c = x :: t := by cases hc <;> exact ⟨_, _, rfl⟩
  obtain ⟨x', t', rfl⟩ : ∃ x t, c' = x :: t := by cases hc' <;> exact ⟨_, _, rfl⟩
  rw [List.cons_append, List.cons_append, List.cons.injEq] at h
  obtain ⟨rfl, h⟩ := h
  have hlen : t.length = t'.length := by have := hc.width; have := hc'.width; omega
  obtain ⟨rfl, rfl⟩ := List.append_inj h hlen
  exact ⟨rfl, rfl⟩

/-- What follows a character in UTF-8 is UTF-8. -/
theorem Utf8.of_char_append {c r : List UInt8} (hc : Utf8Char c) (h : Utf8 (c ++ r)) :
    Utf8 r := by
  generalize hl : c ++ r = l at h
  cases h with
  | nil => cases hc <;> cases hl
  | cons hc' hr => rwa [(hc.eq_of_append_eq hc' hl).2]

/-- UTF-8 does not start with a continuation byte. -/
theorem Utf8.not_tail_head {l : List UInt8} (hl : Utf8 l) (h : 0 < l.length) : ¬Tail l[0] := by
  cases hl with
  | nil => exact absurd h (Nat.lt_irrefl 0)
  | @cons c _ hc _ =>
    obtain ⟨x, t, rfl⟩ : ∃ x t, c = x :: t := by cases hc <;> exact ⟨_, _, rfl⟩
    simpa using hc.not_tail_head

/-- Writing an ASCII byte over a continuation byte of UTF-8 splits a character: the bytes are no
longer UTF-8. -/
theorem Utf8.not_set_ascii {l : List UInt8} (hl : Utf8 l) {i : Nat} (hi : i < l.length)
    (ht : Tail l[i]) {a : UInt8} (ha : a ≤ 0x7F) : ¬Utf8 (l.set i a) := by
  induction hl generalizing i with
  | nil => exact absurd hi (Nat.not_lt_zero _)
  | @cons c rest hc _ ih =>
    by_cases hic : i < c.length
    · -- the byte is in the first character, after its first byte
      obtain ⟨x, t, rfl⟩ : ∃ x t, c = x :: t := by cases hc <;> exact ⟨_, _, rfl⟩
      obtain ⟨j, rfl⟩ : ∃ j, i = j + 1 := by
        cases i with
        | zero => exact absurd (by simpa using ht) hc.not_tail_head
        | succ j => exact ⟨j, rfl⟩
      have hj : j < t.length := by simpa using hic
      rw [List.set_append_left _ _ hic, List.set_cons_succ]
      intro hu
      generalize hl : (x :: t.set j a) ++ rest = l at hu
      cases hu with
      | nil => cases hl
      | @cons c' rest' hc' _ =>
        obtain ⟨x', t', rfl⟩ : ∃ x t, c' = x :: t := by cases hc' <;> exact ⟨_, _, rfl⟩
        rw [List.cons_append, List.cons_append, List.cons.injEq] at hl
        obtain ⟨rfl, h⟩ := hl
        have hlen : t'.length = (t.set j a).length := by
          have := hc.width; have := hc'.width; rw [List.length_set]; omega
        obtain ⟨rfl, -⟩ := List.append_inj h.symm hlen
        exact hc'.ascii_not_mem_tail ha (List.mem_set t j hj a)
    · -- the byte is after the first character
      rw [Nat.not_lt] at hic
      rw [List.set_append_right _ _ hic]
      intro hu
      refine ih (by simp only [List.length_append] at hi; omega) ?_ (hu.of_char_append hc)
      rwa [List.getElem_append_right hic] at ht

/-- `&str`: bytes that are UTF-8; `bytes` is `as_bytes`. -/
structure Str where
  bytes : List UInt8
  utf8 : Utf8 bytes

end Capnp.Text
