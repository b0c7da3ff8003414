import Capnp.Async.Read
import Mathlib.Algebra.BigOperators.Group.List
import Mathlib.Algebra.Order.Ring.Nat

/-!
# The segment table and the segment slices

What `read_segment_table_rest` and `read_segments` compute from their full buffers, said once:

- `chunks4_of_dvd`, `flatten_chunks4`: a table buffer of whole `u32` fields splits into its
  four-byte fields;
- `pushSegmentSlices_of_valid` and `pushSegmentSlices_eq_ok`: the slice loop lays the segments
  end to end (`slicesFrom`), and it fails exactly on a short chunk or a total past `usize`;
- `Tiles`: the shape of the slices the reader keeps, with `tiles_slicesFrom`;
- `mapM_wordSlice_of_tiles`, `mapM_wordSlice_slicesFrom`, `flatten_of_mapM_wordSlice`: the
  segment views over the owned space exist for tiling slices, are the segments laid end to end
  there, and together are the whole space.
-/

set_option autoImplicit false

namespace Capnp.Async

/-! ## Slices laid end to end -/

/-- The slices of segments of lengths `lens` laid end to end from word `a`. -/
def slicesFrom : Nat → List Nat → List (Nat × Nat)
  | _, [] => []
  | a, l :: lens => (a, a + l) :: slicesFrom (a + l) lens

@[simp] theorem slicesFrom_nil (a : Nat) : slicesFrom a [] = [] := rfl

@[simp] theorem slicesFrom_cons (a l : Nat) (lens : List Nat) :
    slicesFrom a (l :: lens) = (a, a + l) :: slicesFrom (a + l) lens := rfl

@[simp] theorem length_slicesFrom (a : Nat) (lens : List Nat) :
    (slicesFrom a lens).length = lens.length := by
  induction lens generalizing a <;> simp_all

theorem slicesFrom_inj {a : Nat} {lens lens' : List Nat} (h : slicesFrom a lens = slicesFrom a lens') :
    lens = lens' := by
  induction lens generalizing a lens' with
  | nil => cases lens' <;> simp_all
  | cons l lens ih =>
    cases lens' with
    | nil => simp at h
    | cons l' lens' =>
      simp only [slicesFrom_cons, List.cons.injEq, Prod.mk.injEq, Nat.add_left_cancel_iff] at h
      obtain ⟨⟨-, rfl⟩, hrest⟩ := h
      rw [ih hrest]

/-- `slices` cover the words from `a` to `b` in order: the first starts at `a`, each ends where
the next starts, none ends before it starts, and the last ends at `b`. -/
def Tiles : Nat → List (Nat × Nat) → Nat → Prop
  | a, [], b => a = b
  | a, (s, e) :: rest, b => s = a ∧ s ≤ e ∧ Tiles e rest b

theorem tiles_slicesFrom (a : Nat) (lens : List Nat) : Tiles a (slicesFrom a lens) (a + lens.sum) := by
  induction lens generalizing a with
  | nil => rfl
  | cons l lens ih =>
    refine ⟨rfl, Nat.le_add_right a l, ?_⟩
    rw [List.sum_cons, ← Nat.add_assoc]
    exact ih (a + l)

theorem Tiles.le {a b : Nat} {slices : List (Nat × Nat)} (h : Tiles a slices b) : a ≤ b := by
  induction slices generalizing a with
  | nil => exact Nat.le_of_eq h
  | cons se rest ih => obtain ⟨rfl, hse, hrest⟩ := h; exact Nat.le_trans hse (ih hrest)

/-! ## The table's fields -/

@[simp] theorem chunks4_nil : chunks4 [] = [] := rfl

theorem chunks4_append (c rest : List UInt8) (hc : c.length = 4) :
    chunks4 (c ++ rest) = c :: chunks4 rest := by
  match c, hc with
  | [_, _, _, _], _ => rfl

theorem chunks4_of_dvd (b : List UInt8) (h : 4 ∣ b.length) :
    (∀ c ∈ chunks4 b, c.length = 4) ∧ (chunks4 b).length = b.length / 4 := by
  induction b using chunks4.induct with
  | case1 a0 a1 a2 a3 rest ih =>
    obtain ⟨ih1, ih2⟩ := ih (by simp only [List.length_cons] at h; omega)
    simp only [chunks4, List.mem_cons, forall_eq_or_imp, List.length_cons]
    exact ⟨⟨rfl, ih1⟩, by omega⟩
  | case2 => simp [chunks4]
  | case3 rest hshort hne =>
    rcases rest with _ | ⟨_, _ | ⟨_, _ | ⟨_, _ | ⟨_, _⟩⟩⟩⟩
    · exact (hne rfl).elim
    all_goals first
      | exact (hshort _ _ _ _ _ rfl).elim
      | (simp only [List.length_cons, List.length_nil] at h; omega)

theorem length_flatten_of_length_eq {α : Type} {n : Nat} (l : List (List α))
    (h : ∀ x ∈ l, x.length = n) : l.flatten.length = n * l.length := by
  induction l with
  | nil => simp
  | cons x l ih =>
    rw [List.flatten_cons, List.length_append, h x (List.mem_cons_self x l),
      ih fun y hy => h y (List.mem_cons_of_mem x hy), List.length_cons, Nat.mul_succ, Nat.add_comm]

theorem flatten_chunks4 (b : List UInt8) : (chunks4 b).flatten = b := by
  induction b using chunks4.induct with
  | case1 a0 a1 a2 a3 rest ih => simp [chunks4, ih]
  | case2 => rfl
  | case3 rest hshort hne =>
    rcases rest with _ | ⟨_, _ | ⟨_, _ | ⟨_, _ | ⟨_, _⟩⟩⟩⟩
    · exact (hne rfl).elim
    all_goals first
      | exact (hshort _ _ _ _ _ rfl).elim
      | rfl

/-! ## The slice loop -/

theorem sum_readU32_le (chunks : List (List UInt8)) :
    (chunks.map readU32).sum ≤ chunks.length * 2 ^ 32 := by
  induction chunks with
  | nil => simp
  | cons c cs ih =>
    have := readU32_lt c
    simp only [List.map_cons, List.sum_cons, List.length_cons]
    omega

/-- On chunks of four bytes whose lengths keep the total inside `usize`, the slice loop lays the
segments end to end after the ones it has. -/
theorem pushSegmentSlices_of_valid (chunks : List (List UInt8)) (totalWords : Nat)
    (segmentSlices : List (Nat × Nat)) (hc : ∀ c ∈ chunks, 4 ≤ c.length)
    (hs : totalWords + (chunks.map readU32).sum < usizeBound) :
    pushSegmentSlices chunks (totalWords, segmentSlices) =
      .ok (totalWords + (chunks.map readU32).sum,
        segmentSlices ++ slicesFrom totalWords (chunks.map readU32)) := by
  induction chunks generalizing totalWords segmentSlices with
  | nil => simp [pushSegmentSlices]
  | cons c cs ih =>
    simp only [List.map_cons, List.sum_cons] at hs ⊢
    rw [pushSegmentSlices, if_neg (by have := hc c (List.mem_cons_self c cs); omega),
      if_neg (by omega), ih _ _ (fun c hc' => hc c (List.mem_cons_of_mem _ hc')) (by omega)]
    simp [Nat.add_assoc]

/-- An `Ok` of the slice loop: every chunk had four bytes, and the segments are laid end to end
after the ones it had. -/
theorem pushSegmentSlices_eq_ok {chunks : List (List UInt8)} {totalWords : Nat}
    {segmentSlices : List (Nat × Nat)} {t : Nat} {slices : List (Nat × Nat)}
    (h : pushSegmentSlices chunks (totalWords, segmentSlices) = .ok (t, slices)) :
    (∀ c ∈ chunks, 4 ≤ c.length) ∧ t = totalWords + (chunks.map readU32).sum ∧
      slices = segmentSlices ++ slicesFrom totalWords (chunks.map readU32) := by
  induction chunks generalizing totalWords segmentSlices with
  | nil => simp only [pushSegmentSlices, Except.ok.injEq, Prod.mk.injEq] at h; simp [h]
  | cons c cs ih =>
    rw [pushSegmentSlices] at h
    split at h
    · cases h
    split at h
    · cases h
    obtain ⟨hcs, rfl, rfl⟩ := ih h
    refine ⟨fun c' hc' => ?_, by simp [Nat.add_assoc], by simp⟩
    rcases List.mem_cons.mp hc' with rfl | hc'
    · omega
    · exact hcs c' hc'

/-! ## The segment views -/

theorem mapM_wordSlice_cons {ownedSpace : List Word} {se : Nat × Nat} {rest : List (Nat × Nat)}
    {seg : List Word} {segs : List (List Word)} (h : wordSlice ownedSpace se = .ok seg)
    (hrest : rest.mapM (wordSlice ownedSpace) = .ok segs) :
    (se :: rest).mapM (wordSlice ownedSpace) = .ok (seg :: segs) := by
  rw [List.mapM_cons, h, hrest]
  rfl

/-- Slices that tile words `a` to `b` of the owned space have their views. -/
theorem mapM_wordSlice_of_tiles (ownedSpace : List Word) {a b : Nat} {slices : List (Nat × Nat)}
    (h : Tiles a slices b) (hb : b ≤ ownedSpace.length) :
    ∃ segments, slices.mapM (wordSlice ownedSpace) = .ok segments := by
  induction slices generalizing a with
  | nil => exact ⟨[], rfl⟩
  | cons se rest ih =>
    obtain ⟨s, e⟩ := se
    obtain ⟨rfl, hse, hrest⟩ := h
    obtain ⟨segments, hsegs⟩ := ih hrest
    have hslice : wordSlice ownedSpace (s, e) = .ok ((ownedSpace.take e).drop s) := by
      rw [wordSlice, if_pos ⟨hse, Nat.le_trans hrest.le hb⟩]
    exact ⟨_, mapM_wordSlice_cons hslice hsegs⟩

/-- Over segments laid end to end after `pre`, the views are the segments. -/
theorem mapM_wordSlice_slicesFrom (pre : List Word) (segments : List (List Word)) :
    (slicesFrom pre.length (segments.map List.length)).mapM
      (wordSlice (pre ++ segments.flatten)) = .ok segments := by
  induction segments generalizing pre with
  | nil => rfl
  | cons seg segs ih =>
    have hslice : wordSlice (pre ++ (seg :: segs).flatten) (pre.length, pre.length + seg.length) =
        .ok seg := by
      rw [wordSlice, if_pos ⟨Nat.le_add_right _ _, by simp⟩, List.flatten_cons,
        ← List.append_assoc, List.take_append_of_le_length (by simp),
        List.take_of_length_le (by simp), List.drop_left]
    have hrest := ih (pre ++ seg)
    rw [List.length_append, List.append_assoc, ← List.flatten_cons] at hrest
    exact mapM_wordSlice_cons hslice hrest

/-- The views of tiling slices, together, are the words they tile. -/
theorem flatten_of_mapM_wordSlice (ownedSpace : List Word) {a b : Nat} {slices : List (Nat × Nat)}
    {segments : List (List Word)} (h : Tiles a slices b) (hb : b ≤ ownedSpace.length)
    (hm : slices.mapM (wordSlice ownedSpace) = .ok segments) :
    segments.flatten = (ownedSpace.take b).drop a ∧
      slices = slicesFrom a (segments.map List.length) := by
  induction slices generalizing a segments with
  | nil =>
    cases hm
    simp [show a = b from h]
  | cons se rest ih =>
    obtain ⟨s, e⟩ := se
    obtain ⟨rfl, hse, hrest⟩ := h
    have heb := hrest.le
    have hslice : wordSlice ownedSpace (s, e) = .ok ((ownedSpace.take e).drop s) := by
      rw [wordSlice, if_pos ⟨hse, Nat.le_trans heb hb⟩]
    rw [List.mapM_cons, hslice] at hm
    cases hrm : rest.mapM (wordSlice ownedSpace) with
    | error p => rw [hrm] at hm; cases hm
    | ok segs =>
      rw [hrm] at hm
      cases hm
      obtain ⟨hflat, rfl⟩ := ih hrest hrm
      have hlen : ((ownedSpace.take e).drop s).length = e - s := by simp; omega
      refine ⟨?_, by rw [List.map_cons, hlen, slicesFrom_cons, Nat.add_sub_cancel' hse]⟩
      have htake : ownedSpace.take e = (ownedSpace.take b).take e := by
        rw [List.take_take, Nat.min_eq_left heb]
      rw [List.flatten_cons, hflat, htake, ← List.drop_append_of_le_length (by simp; omega),
        List.take_append_drop]

end Capnp.Async
