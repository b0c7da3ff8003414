import Mathlib.Data.List.Basic
import Mathlib.Algebra.Group.Nat.Basic

/-!
# Words and little-endian fields

`Word` is the unit Cap'n Proto measures and allocates messages in: eight bytes. The reader fills
an owned `Vec<Word>` through its byte view, so the model keeps both views of a word slice,
`wordsToBytes` and `bytesToWords`, and proves them inverse (`bytesToWords_wordsToBytes`,
`wordsToBytes_bytesToWords`).

The segment table is made of little-endian `u32` fields. `readU32` reads one as
`LittleEndian::read_u32` does; `leBytes` writes one, and `readU32_leBytes` and
`leBytes_readU32` are the two round trips.
-/

set_option autoImplicit false

namespace Capnp

/-- `Word`: eight bytes, in memory order. -/
structure Word where
  bytes : List UInt8
  length_bytes : bytes.length = 8
  deriving DecidableEq, Repr

namespace Word

/-- The word of eight zero bytes. -/
def zero : Word := ⟨List.replicate 8 0, rfl⟩

/-- `Word::allocate_zeroed_vec`: `n` zero words. -/
def allocateZeroedVec (n : Nat) : List Word := List.replicate n zero

/-- `Word::words_to_bytes`: the bytes of a word slice, word after word. -/
def wordsToBytes (ws : List Word) : List UInt8 := ws.flatMap Word.bytes

/-- `Word::bytes_to_words`: the words of a byte slice, eight bytes each. Bytes after the last
whole word are dropped; the reader only converts slices of whole words. -/
def bytesToWords : List UInt8 → List Word
  | b0 :: b1 :: b2 :: b3 :: b4 :: b5 :: b6 :: b7 :: rest =>
      ⟨[b0, b1, b2, b3, b4, b5, b6, b7], rfl⟩ :: bytesToWords rest
  | _ => []

@[simp] theorem wordsToBytes_nil : wordsToBytes [] = [] := rfl

@[simp] theorem wordsToBytes_cons (w : Word) (ws : List Word) :
    wordsToBytes (w :: ws) = w.bytes ++ wordsToBytes ws := rfl

@[simp] theorem wordsToBytes_append (ws vs : List Word) :
    wordsToBytes (ws ++ vs) = wordsToBytes ws ++ wordsToBytes vs := by
  simp [wordsToBytes]

@[simp] theorem length_wordsToBytes (ws : List Word) :
    (wordsToBytes ws).length = 8 * ws.length := by
  induction ws with
  | nil => rfl
  | cons w ws ih => simp [ih, w.length_bytes]; omega

theorem bytesToWords_append_bytes (w : Word) (rest : List UInt8) :
    bytesToWords (w.bytes ++ rest) = w :: bytesToWords rest := by
  obtain ⟨bs, h⟩ := w
  match bs, h with
  | [_, _, _, _, _, _, _, _], _ => rfl

theorem bytesToWords_wordsToBytes (ws : List Word) : bytesToWords (wordsToBytes ws) = ws := by
  induction ws with
  | nil => rfl
  | cons w ws ih => rw [wordsToBytes_cons, bytesToWords_append_bytes, ih]

theorem wordsToBytes_bytesToWords (b : List UInt8) (h : 8 ∣ b.length) :
    wordsToBytes (bytesToWords b) = b := by
  induction b using bytesToWords.induct with
  | case1 b0 b1 b2 b3 b4 b5 b6 b7 rest ih =>
    simp only [bytesToWords, wordsToBytes_cons, List.cons_append, List.nil_append]
    rw [ih (by simp at h; omega)]
  | case2 t hshort =>
    rcases t with
      _ | ⟨_, _ | ⟨_, _ | ⟨_, _ | ⟨_, _ | ⟨_, _ | ⟨_, _ | ⟨_, _ | ⟨_, _⟩⟩⟩⟩⟩⟩⟩⟩
    · rfl
    all_goals first
      | exact (hshort _ _ _ _ _ _ _ _ _ rfl).elim
      | (simp only [List.length_cons, List.length_nil] at h; omega)

@[simp] theorem length_bytesToWords (b : List UInt8) : (bytesToWords b).length = b.length / 8 := by
  induction b using bytesToWords.induct with
  | case1 b0 b1 b2 b3 b4 b5 b6 b7 rest ih => simp [bytesToWords, ih]; omega
  | case2 t hshort =>
    rcases t with
      _ | ⟨_, _ | ⟨_, _ | ⟨_, _ | ⟨_, _ | ⟨_, _ | ⟨_, _ | ⟨_, _ | ⟨_, _⟩⟩⟩⟩⟩⟩⟩⟩
    all_goals first
      | exact (hshort _ _ _ _ _ _ _ _ _ rfl).elim
      | simp [bytesToWords]

@[simp] theorem length_allocateZeroedVec (n : Nat) : (allocateZeroedVec n).length = n := by
  simp [allocateZeroedVec]

end Word

/-! ## Little-endian fields -/

/-- The natural number whose little-endian bytes are `b`. -/
def leValue : List UInt8 → Nat
  | [] => 0
  | x :: rest => x.toNat + 256 * leValue rest

/-- The `w` little-endian bytes of `n`, modulo `256 ^ w`. -/
def leBytes : Nat → Nat → List UInt8
  | 0, _ => []
  | w + 1, n => UInt8.ofNat (n % 256) :: leBytes w (n / 256)

/-- `LittleEndian::read_u32`: the value of the first four bytes. `byteorder` asserts that there
are four; the callers check it where it can fail. -/
def readU32 (b : List UInt8) : Nat := leValue (b.take 4)

@[simp] theorem length_leBytes (w n : Nat) : (leBytes w n).length = w := by
  induction w generalizing n with
  | zero => rfl
  | succ w ih => simp [leBytes, ih]

theorem leValue_lt (b : List UInt8) : leValue b < 256 ^ b.length := by
  induction b with
  | nil => simp [leValue]
  | cons x rest ih =>
    have hx : x.toNat < 256 := x.toNat_lt_size
    simp only [leValue, List.length_cons, Nat.pow_succ]
    omega

theorem leValue_leBytes (w n : Nat) : leValue (leBytes w n) = n % 256 ^ w := by
  induction w generalizing n with
  | zero => simp [leBytes, leValue, Nat.mod_one]
  | succ w ih =>
    have h : (UInt8.ofNat (n % 256)).toNat = n % 256 :=
      UInt8.toNat_ofNat_of_lt (Nat.mod_lt _ (by decide))
    rw [leBytes, leValue, ih, h, Nat.pow_succ', Nat.mod_mul]

theorem leBytes_leValue (b : List UInt8) : leBytes b.length (leValue b) = b := by
  induction b with
  | nil => rfl
  | cons x rest ih =>
    have hx := x.toNat_lt_size
    simp only [List.length_cons, leBytes, leValue, List.cons.injEq]
    constructor
    · rw [Nat.add_mul_mod_self_left, Nat.mod_eq_of_lt hx]
      exact UInt8.eq_of_val_eq (by simp [UInt8.ofNat, UInt8.toNat, UInt8.val])
    · rw [Nat.add_mul_div_left _ _ (by decide), Nat.div_eq_of_lt hx, Nat.zero_add, ih]

theorem readU32_lt (b : List UInt8) : readU32 b < 2 ^ 32 := by
  have hl : (b.take 4).length ≤ 4 := List.length_take_le 4 b
  calc readU32 b < 256 ^ (b.take 4).length := leValue_lt (b.take 4)
    _ ≤ 256 ^ 4 := Nat.pow_le_pow_right (by decide) hl
    _ = 2 ^ 32 := by decide

theorem readU32_leBytes (n : Nat) (h : n < 2 ^ 32) : readU32 (leBytes 4 n) = n := by
  rw [readU32, List.take_of_length_le (by simp), leValue_leBytes, Nat.mod_eq_of_lt (by omega)]

theorem leBytes_readU32 (b : List UInt8) (h : 4 ≤ b.length) : leBytes 4 (readU32 b) = b.take 4 := by
  have hl : (b.take 4).length = 4 := by simp; omega
  have h := leBytes_leValue (b.take 4)
  rwa [hl] at h

/-- A word is the bytes of its two `u32` fields. -/
theorem leBytes_readU32_append (w : List UInt8) (hw : w.length = 8) :
    leBytes 4 (readU32 w) ++ leBytes 4 (readU32 (w.drop 4)) = w := by
  have hdrop : (w.drop 4).length = 4 := by simp [hw]
  rw [leBytes_readU32 w (by omega), leBytes_readU32 (w.drop 4) (by omega),
    List.take_of_length_le (Nat.le_of_eq hdrop), List.take_append_drop]

/-- Four-byte chunks are the bytes of their values. -/
theorem map_leBytes_readU32 (cs : List (List UInt8)) (h : ∀ c ∈ cs, c.length = 4) :
    (cs.map readU32).map (leBytes 4) = cs := by
  rw [List.map_map]
  conv_rhs => rw [← List.map_id cs]
  refine List.map_congr_left fun c hc => ?_
  rw [Function.comp_apply, leBytes_readU32 c (by rw [h c hc]), List.take_of_length_le (by rw [h c hc]),
    id]

theorem readU32_append (a b : List UInt8) (h : a.length = 4) : readU32 (a ++ b) = readU32 a := by
  rw [readU32, readU32, List.take_append_eq_append_take, h, Nat.sub_self, List.take_zero,
    List.append_nil]

end Capnp
