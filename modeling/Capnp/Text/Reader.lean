import Capnp.Text.Builder

/-!
# What `new_reader`'s error says

`new_reader` returns the `Utf8Error` of `from_utf8` in its error's detail. The documentation of
`core::str::Utf8Error` says what it holds: `valid_up_to` is the length of the longest prefix of
the input that is UTF-8, and `error_len` is `None` when the input ends inside a character, or
else the length of the bad sequence after that prefix. `Utf8Error.Describes` states this over the
grammar `Utf8Char`, with `CharPrefix p` (some bytes after `p` complete a character) and
`ErrorLenDescribes` (after `valid_up_to`, the longest start of a character and the byte that does
not go on with it).

A turn of the loop that fails has read the longest start of a character and the byte after it
(`multibyteTail_eq_error`), and the bytes it starts at begin no character
(`multibyteTail_eq_error_not_char`); the loop fails at the first such turn
(`runUtf8Validation_eq_error_turn`). So `from_utf8` fails with the error the documentation
describes (`fromUtf8_eq_error_describes`), and only one error fits it
(`Utf8Error.Describes.unique`). The main theorem, `newReader_eq_err_iff`, states `new_reader`'s
errors as the decode errors built from that error.
-/

set_option autoImplicit false

namespace Capnp.Text

/-! ## Starts of characters -/

section Prefix

variable {a b c d : UInt8}

/-- `p` starts a character: some bytes after it complete one. -/
def CharPrefix (p : List UInt8) : Prop := ∃ s, Utf8Char (p ++ s)

namespace CharPrefix

theorem of_append {p q : List UInt8} (h : CharPrefix (p ++ q)) : CharPrefix p :=
  let ⟨s, hs⟩ := h
  ⟨q ++ s, by rwa [← List.append_assoc]⟩

theorem of_take {p : List UInt8} {i j : Nat} (hij : i ≤ j) (h : CharPrefix (p.take j)) :
    CharPrefix (p.take i) := by
  rw [← List.take_append_drop i (p.take j), List.take_take, Nat.min_eq_left hij] at h
  exact h.of_append

/-- The start of a character is shorter than the character its first byte begins. -/
theorem length_lt {t : List UInt8} (h : CharPrefix (a :: t)) : t.length < utf8CharWidth a := by
  obtain ⟨s, hs⟩ := h
  rw [List.cons_append] at hs
  have := hs.width
  rw [List.length_append] at this
  omega

/-- Every byte of the start of a character after its first is a continuation byte. -/
theorem tail_of_mem {t : List UInt8} (h : CharPrefix (a :: t)) {y : UInt8} (hy : y ∈ t) : Tail y :=
  let ⟨_, hs⟩ := h
  hs.tail_of_mem y (List.mem_append_left _ hy)

theorem secondByteOk3 {t : List UInt8} (h : CharPrefix (a :: b :: t)) (hw : utf8CharWidth a = 3) :
    secondByteOk3 a b = true := by
  obtain ⟨s, hs⟩ := h
  rw [List.cons_append, List.cons_append] at hs
  generalize t ++ s = u at hs
  have le := @UInt8.le_trans
  cases hs with
  | two ha ha' => exact absurd ((utf8CharWidth_eq_two.2 ⟨ha, ha'⟩).symm.trans hw) (by decide)
  | e0 hb hb' => simp [Capnp.Text.secondByteOk3, hb, hb']
  | e1ec ha ha' hb => simp [Capnp.Text.secondByteOk3, ha, ha', hb.1, hb.2]
  | ed hb hb' => simp [Capnp.Text.secondByteOk3, hb, hb']
  | eeef ha ha' hb => simp [Capnp.Text.secondByteOk3, ha, ha', hb.1, hb.2]
  | f0 | f4 => exact absurd hw (by decide)
  | f1f3 ha ha' =>
    exact absurd ((utf8CharWidth_eq_four.2 ⟨le (by decide) ha, le ha' (by decide)⟩).symm.trans hw)
      (by decide)

theorem secondByteOk4 {t : List UInt8} (h : CharPrefix (a :: b :: t)) (hw : utf8CharWidth a = 4) :
    secondByteOk4 a b = true := by
  obtain ⟨s, hs⟩ := h
  rw [List.cons_append, List.cons_append] at hs
  generalize t ++ s = u at hs
  have le := @UInt8.le_trans
  cases hs with
  | two ha ha' => exact absurd ((utf8CharWidth_eq_two.2 ⟨ha, ha'⟩).symm.trans hw) (by decide)
  | e0 | ed => exact absurd hw (by decide)
  | e1ec ha ha' =>
    exact absurd ((utf8CharWidth_eq_three.2 ⟨le (by decide) ha, le ha' (by decide)⟩).symm.trans hw)
      (by decide)
  | eeef ha ha' =>
    exact absurd ((utf8CharWidth_eq_three.2 ⟨le (by decide) ha, ha'⟩).symm.trans hw) (by decide)
  | f0 hb hb' => simp [Capnp.Text.secondByteOk4, hb, hb']
  | f1f3 ha ha' hb => simp [Capnp.Text.secondByteOk4, ha, ha', hb.1, hb.2]
  | f4 hb hb' => simp [Capnp.Text.secondByteOk4, hb, hb']

end CharPrefix

/-- Every start of the start of a character starts one. -/
theorem CharPrefix.take {r : List UInt8} (h : CharPrefix r) (i : Nat) : CharPrefix (r.take i) := by
  rw [← List.take_append_drop i r] at h
  exact h.of_append

theorem charPrefix_nil : CharPrefix [] := ⟨[0], .one (by decide)⟩

/-- A byte the table gives a width starts a character. -/
theorem charPrefix_singleton (hw : utf8CharWidth a ≠ 0) : CharPrefix [a] := by
  have tl : Tail 0x80 := ⟨by decide, by decide⟩
  rw [utf8CharWidth_eq_toNat] at hw
  have hr : a.toNat < 0x80 ∨ (0xC2 ≤ a.toNat ∧ a.toNat ≤ 0xDF) ∨ a.toNat = 0xE0 ∨
      (0xE1 ≤ a.toNat ∧ a.toNat ≤ 0xEC) ∨ a.toNat = 0xED ∨ (0xEE ≤ a.toNat ∧ a.toNat ≤ 0xEF) ∨
      a.toNat = 0xF0 ∨ (0xF1 ≤ a.toNat ∧ a.toNat ≤ 0xF3) ∨ a.toNat = 0xF4 := by
    split_ifs at hw <;> omega
  rcases hr with h | h | h | h | h | h | h | h | h
  · exact ⟨[], .one (show a.toNat ≤ 0x7F by omega)⟩
  · exact ⟨[0x80], .two (show 0xC2 ≤ a.toNat from h.1) (show a.toNat ≤ 0xDF from h.2) tl⟩
  · rw [show a = 0xE0 from UInt8.toNat.inj h]
    exact ⟨[0xA0, 0x80], .e0 (by decide) (by decide) tl⟩
  · exact ⟨[0x80, 0x80], .e1ec (show 0xE1 ≤ a.toNat from h.1) (show a.toNat ≤ 0xEC from h.2) tl tl⟩
  · rw [show a = 0xED from UInt8.toNat.inj h]
    exact ⟨[0x80, 0x80], .ed (by decide) (by decide) tl⟩
  · exact ⟨[0x80, 0x80], .eeef (show 0xEE ≤ a.toNat from h.1) (show a.toNat ≤ 0xEF from h.2) tl tl⟩
  · rw [show a = 0xF0 from UInt8.toNat.inj h]
    exact ⟨[0x90, 0x80, 0x80], .f0 (by decide) (by decide) tl tl⟩
  · exact ⟨[0x80, 0x80, 0x80],
      .f1f3 (show 0xF1 ≤ a.toNat from h.1) (show a.toNat ≤ 0xF3 from h.2) tl tl tl⟩
  · rw [show a = 0xF4 from UInt8.toNat.inj h]
    exact ⟨[0x80, 0x80, 0x80], .f4 (by decide) (by decide) tl tl⟩

theorem not_charPrefix_pair (hb : ¬Tail b) (t : List UInt8) : ¬CharPrefix (a :: b :: t) :=
  fun h => hb (h.tail_of_mem (List.mem_cons_self b t))

theorem not_charPrefix_triple (hc : ¬Tail c) (t : List UInt8) : ¬CharPrefix (a :: b :: c :: t) :=
  fun h => hc (h.tail_of_mem (by simp))

theorem not_charPrefix_quad (hd : ¬Tail d) (t : List UInt8) :
    ¬CharPrefix (a :: b :: c :: d :: t) :=
  fun h => hd (h.tail_of_mem (by simp))

end Prefix

/-! ## The error of a turn -/

/-- What `error_len` says of the bytes `r` from `valid_up_to` on: `None` when they start a
character the input ends in; `Some(k)` when, after the longest start of a character `m` of
them, the next byte does not go on with it, and `k` is `m`, or `1` when `m` is empty. -/
def ErrorLenDescribes : Option Nat → List UInt8 → Prop
  | none, r => CharPrefix r
  | some k, r => ∃ m, m < r.length ∧ CharPrefix (r.take m) ∧ ¬CharPrefix (r.take (m + 1)) ∧
      k = max 1 m

section Turn

variable {index : Nat} {first : UInt8} {rest : List UInt8}

/-- A failed turn's `error_len` describes the bytes from the character's first on. -/
theorem multibyteTail_eq_error {e : Utf8Error} (h128 : ¬first < 128)
    (h : multibyteTail index first rest = .error e) :
    ErrorLenDescribes e.errorLen (first :: rest) := by
  have tl : Tail 0x80 := ⟨by decide, by decide⟩
  unfold multibyteTail at h
  split at h
  · rename_i hw
    rcases rest with _ | ⟨b, r⟩
    · cases h; exact charPrefix_singleton (by omega)
    simp only [next, List.getElem?_cons_zero, ok_bind] at h
    split_ifs at h with h1 <;> cases h
    exact ⟨1, by simp, charPrefix_singleton (by omega),
      not_charPrefix_pair (fun ht => tail_iff_asI8.1 ht h1) _, rfl⟩
  · rename_i hw
    have bad : ∀ {b : UInt8} {t}, (!secondByteOk3 first b) = true → ¬CharPrefix (first :: b :: t) :=
      fun h1 hp => by simp [hp.secondByteOk3 hw] at h1
    rcases rest with _ | ⟨b, _ | ⟨c, r⟩⟩
    · cases h; exact charPrefix_singleton (by omega)
    · simp only [next, List.getElem?_cons_zero, List.getElem?_cons_succ, List.getElem?_nil,
        ok_bind] at h
      split_ifs at h with h1 <;> cases h
      · exact ⟨1, by simp, charPrefix_singleton (by omega), bad h1, rfl⟩
      · exact ⟨[0x80], utf8Char_of_secondByteOk3 (by simpa using h1) tl⟩
    · simp only [next, List.getElem?_cons_zero, List.getElem?_cons_succ, ok_bind] at h
      split_ifs at h with h1 h2 <;> cases h
      · exact ⟨1, by simp, charPrefix_singleton (by omega), bad h1, rfl⟩
      · exact ⟨2, by simp, ⟨[0x80], utf8Char_of_secondByteOk3 (by simpa using h1) tl⟩,
          not_charPrefix_triple (fun ht => tail_iff_asI8.1 ht h2) _, rfl⟩
  · rename_i hw
    have bad : ∀ {b : UInt8} {t}, (!secondByteOk4 first b) = true → ¬CharPrefix (first :: b :: t) :=
      fun h1 hp => by simp [hp.secondByteOk4 hw] at h1
    rcases rest with _ | ⟨b, _ | ⟨c, _ | ⟨d, r⟩⟩⟩
    · cases h; exact charPrefix_singleton (by omega)
    · simp only [next, List.getElem?_cons_zero, List.getElem?_cons_succ, List.getElem?_nil,
        ok_bind] at h
      split_ifs at h with h1 <;> cases h
      · exact ⟨1, by simp, charPrefix_singleton (by omega), bad h1, rfl⟩
      · exact ⟨[0x80, 0x80], utf8Char_of_secondByteOk4 (by simpa using h1) tl tl⟩
    · simp only [next, List.getElem?_cons_zero, List.getElem?_cons_succ, List.getElem?_nil,
        ok_bind] at h
      split_ifs at h with h1 h2 <;> cases h
      · exact ⟨1, by simp, charPrefix_singleton (by omega), bad h1, rfl⟩
      · exact ⟨2, by simp, ⟨[0x80, 0x80], utf8Char_of_secondByteOk4 (by simpa using h1) tl tl⟩,
          not_charPrefix_triple (fun ht => tail_iff_asI8.1 ht h2) _, rfl⟩
      · exact ⟨[0x80], utf8Char_of_secondByteOk4 (by simpa using h1) (tail_iff_asI8.2 h2) tl⟩
    · simp only [next, List.getElem?_cons_zero, List.getElem?_cons_succ, ok_bind] at h
      split_ifs at h with h1 h2 h3 <;> cases h
      · exact ⟨1, by simp, charPrefix_singleton (by omega), bad h1, rfl⟩
      · exact ⟨2, by simp, ⟨[0x80, 0x80], utf8Char_of_secondByteOk4 (by simpa using h1) tl tl⟩,
          not_charPrefix_triple (fun ht => tail_iff_asI8.1 ht h2) _, rfl⟩
      · exact ⟨3, by simp,
          ⟨[0x80], utf8Char_of_secondByteOk4 (by simpa using h1) (tail_iff_asI8.2 h2) tl⟩,
          not_charPrefix_quad (fun ht => tail_iff_asI8.1 ht h3) _, rfl⟩
  · rename_i h2 h3 h4
    cases h
    refine ⟨0, by simp, charPrefix_nil, fun hp => ?_, rfl⟩
    have h0 := hp.length_lt
    rw [List.take_zero, List.length_nil] at h0
    have h1 := mt utf8CharWidth_eq_one.1 h128
    have := utf8CharWidth_le_four first
    simp only [imp_false] at h2 h3 h4
    omega

/-- The bytes a failed turn starts at begin no character. -/
theorem multibyteTail_eq_error_not_char {e : Utf8Error} (h128 : ¬first < 128)
    (h : multibyteTail index first rest = .error e) {l : List UInt8} (hl : Utf8 l)
    (hpre : l <+: first :: rest) : l = [] := by
  cases hl with
  | nil => rfl
  | @cons c r hc _ =>
    obtain ⟨x, tl, rfl⟩ : ∃ x t, c = x :: t := by cases hc <;> exact ⟨_, _, rfl⟩
    obtain ⟨s, hs⟩ := hpre
    rw [List.cons_append, List.cons_append, List.cons.injEq, List.append_assoc] at hs
    obtain ⟨rfl, rfl⟩ := hs
    rw [multibyteTail_char hc h128] at h
    cases h

end Turn

/-! ## The error of the loop -/

/-- What follows UTF-8 in UTF-8 is UTF-8. -/
theorem Utf8.of_append_left {l r : List UInt8} (hl : Utf8 l) (h : Utf8 (l ++ r)) : Utf8 r := by
  induction hl with
  | nil => exact h
  | cons hc _ ih => rw [List.append_assoc] at h; exact ih (h.of_char_append hc)

/-- After UTF-8, `run_utf8_validation` goes on from the byte after it. -/
theorem runUtf8Validation_utf8_append {l : List UInt8} (hl : Utf8 l) (r : List UInt8)
    (index : Nat) : runUtf8Validation (l ++ r) index = runUtf8Validation r (index + l.length) := by
  induction hl generalizing index with
  | nil => rfl
  | @cons c rest hc _ ih =>
    rw [List.append_assoc, runUtf8Validation_char_append hc, ih, List.length_append,
      Nat.add_assoc]

/-- An error of `run_utf8_validation` is the error of the turn at the byte it names. -/
theorem runUtf8Validation_eq_error_turn {v : List UInt8} {index : Nat} {e : Utf8Error}
    (h : runUtf8Validation v index = .error e) :
    ∃ first rest, v.drop (e.validUpTo - index) = first :: rest ∧ ¬first < 128 ∧
      multibyteTail e.validUpTo first rest = .error e := by
  obtain ⟨h1, h2, h3⟩ := runUtf8Validation_eq_error h
  rw [← List.take_append_drop (e.validUpTo - index) v, runUtf8Validation_utf8_append h3,
    List.length_take, Nat.min_eq_left (by omega), Nat.add_sub_cancel' h1] at h
  obtain ⟨first, rest, hv⟩ : ∃ first rest, v.drop (e.validUpTo - index) = first :: rest :=
    List.exists_cons_of_ne_nil (by simp; omega)
  rw [hv, runUtf8Validation] at h
  refine ⟨first, rest, hv, ?_⟩
  split_ifs at h with h128
  · have := (runUtf8Validation_eq_error h).1; omega
  · split at h
    · have := (runUtf8Validation_eq_error h).1; omega
    · cases h; exact ⟨h128, ‹_›⟩

/-! ## The documented error -/

/-- `core::str::Utf8Error` as its documentation describes it for the bytes `v`: `v[..valid_up_to]`
is the longest UTF-8 prefix of `v`, and `error_len` describes the bytes after it. -/
structure Utf8Error.Describes (e : Utf8Error) (v : List UInt8) : Prop where
  valid : Utf8 (v.take e.validUpTo)
  validUpTo_lt : e.validUpTo < v.length
  longest : ∀ n, e.validUpTo < n → n ≤ v.length → ¬Utf8 (v.take n)
  errorLen : ErrorLenDescribes e.errorLen (v.drop e.validUpTo)

/-- `from_utf8`'s error is the one its documentation describes. -/
theorem fromUtf8_eq_error_describes {v : List UInt8} {e : Utf8Error} (h : fromUtf8 v = .error e) :
    e.Describes v := by
  have hr : runUtf8Validation v 0 = .error e := by
    unfold fromUtf8 at h; split at h <;> simp_all
  obtain ⟨-, hlt, hvalid⟩ := runUtf8Validation_eq_error hr
  obtain ⟨first, rest, hv, h128, hturn⟩ := runUtf8Validation_eq_error_turn hr
  rw [Nat.sub_zero] at hvalid hv
  rw [Nat.zero_add] at hlt
  refine ⟨hvalid, hlt, fun n hn hnv hu => ?_, ?_⟩
  · rw [← List.take_append_drop e.validUpTo (v.take n), List.take_take,
      Nat.min_eq_left hn.le, List.drop_take, hv] at hu
    obtain ⟨k, hk⟩ : ∃ k, n - e.validUpTo = k + 1 := ⟨_, (Nat.succ_pred_eq_of_pos (by omega)).symm⟩
    have := multibyteTail_eq_error_not_char h128 hturn (hvalid.of_append_left hu)
      (List.take_prefix _ _)
    rw [hk, List.take_succ_cons] at this
    cases this
  · rw [hv]; exact multibyteTail_eq_error h128 hturn

/-- At most one `error_len` describes the bytes after `valid_up_to`. -/
theorem ErrorLenDescribes.unique {r : List UInt8} :
    ∀ {o o' : Option Nat}, ErrorLenDescribes o r → ErrorLenDescribes o' r → o = o'
  | none, none, _, _ => rfl
  | none, some _, hp, ⟨_, _, _, hn, _⟩ | some _, none, ⟨_, _, _, hn, _⟩, hp => absurd (hp.take _) hn
  | some _, some _, ⟨m, _, hm, hn, rfl⟩, ⟨m', _, hm', hn', rfl⟩ => by
    rcases Nat.lt_trichotomy m m' with h | rfl | h
    · exact absurd (hm'.of_take h) hn
    · rfl
    · exact absurd (hm.of_take h) hn'

namespace Utf8Error.Describes

variable {e e' : Utf8Error} {v : List UInt8}

theorem not_utf8 (h : e.Describes v) : ¬Utf8 v := by
  simpa using h.longest v.length h.validUpTo_lt le_rfl

/-- The documentation of `Utf8Error` determines it. -/
theorem unique (h : e.Describes v) (h' : e'.Describes v) : e = e' := by
  have hv : e.validUpTo = e'.validUpTo := by
    rcases Nat.lt_trichotomy e.validUpTo e'.validUpTo with hlt | heq | hgt
    · exact absurd h'.valid (h.longest _ hlt h'.validUpTo_lt.le)
    · exact heq
    · exact absurd h.valid (h'.longest _ hgt h.validUpTo_lt.le)
  have hl := h.errorLen
  rw [hv] at hl
  cases e; cases e'
  exact (Utf8Error.mk.injEq ..).mpr ⟨hv, hl.unique h'.errorLen⟩

end Utf8Error.Describes

/-- `from_utf8` fails with exactly the error its documentation describes. -/
theorem fromUtf8_eq_error_iff (v : List UInt8) (e : Utf8Error) :
    fromUtf8 v = .error e ↔ e.Describes v :=
  ⟨fromUtf8_eq_error_describes, fun h => by
    obtain ⟨e', he'⟩ := fromUtf8_of_not_utf8 h.not_utf8
    rw [he', (fromUtf8_eq_error_describes he').unique h]⟩

/-- `new_reader`'s errors are the decode errors built from the `Utf8Error` that describes the
bytes: `valid_up_to` is the length of their longest UTF-8 prefix, and `error_len` says how the
character after it goes wrong. -/
theorem newReader_eq_err_iff (v : List UInt8) (x : Error) :
    newReader v = .err x ↔ ∃ e, e.Describes v ∧ x = nonUtf8Error e := by
  unfold newReader
  split
  · rename_i hv
    refine ⟨fun h => (nomatch h), fun ⟨e, he, _⟩ => ?_⟩
    rw [(fromUtf8_eq_error_iff v e).2 he] at hv
    cases hv
  · rename_i e hv
    rw [Result.err.injEq]
    refine ⟨fun h => ⟨e, (fromUtf8_eq_error_iff v e).1 hv, h.symm⟩, fun ⟨e', he', hx⟩ => ?_⟩
    rw [hx, ((fromUtf8_eq_error_iff v e).1 hv).unique he']

/-- A lone continuation byte: the error is at offset 0, one byte long. -/
theorem newReader_eq_err_iff_continuation_byte :
    Utf8Error.Describes ⟨0, some 1⟩ [0x80] ∧ newReader [0x80] = .err (nonUtf8Error ⟨0, some 1⟩) :=
  have hnot : ¬Utf8 [0x80] := fun h => h.not_tail_head (by decide) ⟨by decide, by decide⟩
  have hd : Utf8Error.Describes ⟨0, some 1⟩ [0x80] :=
    ⟨Utf8.nil, by decide, fun n h0 h1 => by
      obtain rfl : n = 1 := by simp at h1; omega
      exact hnot,
     ⟨0, by decide, charPrefix_nil, fun ⟨_, hs⟩ => hs.not_tail_head ⟨by decide, by decide⟩, rfl⟩⟩
  ⟨hd, (newReader_eq_err_iff _ _).2 ⟨_, hd, rfl⟩⟩

end Capnp.Text
