import NebulaFS.Lib.Cursor

/-!
# Cutting a list at boundaries

`pieces data start boundaries` is what the boundaries cut the list into from a position on. `Spaced`
bounds the distance from one boundary to the next and to the end of the list; it is all that a scan for
boundaries has to keep to for its pieces to be a partition with bounded pieces. `blocks size data` is the
list cut at equal distances, where the last piece may be shorter.
-/

namespace Cutting

open Cursor

variable {α : Type*} {data piece : List α} {low high total start boundary : Nat}
  {boundaries : List Nat}

/-- The pieces up to the boundaries, and the rest if there is one. -/
def pieces (data : List α) : (start : Nat) → (boundaries : List Nat) → List (List α)
  | start, [] => if start < data.length then [data.drop start] else []
  | start, boundary :: boundaries =>
      slice data start (boundary - start) :: pieces data boundary boundaries

/-- Every boundary is between `low` and `high` behind the one before it, and behind the last there is
something left, of at most `high`. -/
def Spaced (low high total : Nat) : (start : Nat) → (boundaries : List Nat) → Prop
  | start, [] => start < total ∧ total ≤ start + high
  | start, boundary :: boundaries =>
      start + low ≤ boundary ∧ boundary ≤ start + high ∧ Spaced low high total boundary boundaries

theorem Spaced.lt_total (h : Spaced low high total start boundaries) : start < total := by
  induction boundaries generalizing start with
  | nil => exact h.1
  | cons boundary boundaries ih =>
      have hlow := h.1
      have hrest := ih h.2.2
      omega

theorem Spaced.bounds (h : Spaced low high total start boundaries) (hlow : 0 < low)
    (hmem : boundary ∈ boundaries) : start < boundary ∧ boundary < total := by
  induction boundaries generalizing start with
  | nil => cases hmem
  | cons head boundaries ih =>
      have hhead := h.1
      rcases List.mem_cons.mp hmem with rfl | hmem
      · exact ⟨by omega, h.2.2.lt_total⟩
      · have hrest := ih h.2.2 hmem
        exact ⟨by omega, hrest.2⟩

theorem Spaced.pairwise (h : Spaced low high total start boundaries) (hlow : 0 < low) :
    boundaries.Pairwise (· < ·) := by
  induction boundaries generalizing start with
  | nil => exact List.Pairwise.nil
  | cons boundary boundaries ih =>
      exact List.pairwise_cons.mpr ⟨fun later hlater => (h.2.2.bounds hlow hlater).1, ih h.2.2⟩

theorem pieces_nil (h : start < data.length) : pieces data start [] = [data.drop start] :=
  if_pos h

theorem Spaced.pieces_ne_nil (h : Spaced low high data.length start boundaries) :
    pieces data start boundaries ≠ [] := by
  cases boundaries with
  | nil =>
      rw [pieces_nil h.1]
      exact List.cons_ne_nil _ _
  | cons boundary boundaries => exact List.cons_ne_nil _ _

/-- Nothing is lost between the pieces. -/
theorem Spaced.flatten_pieces (h : Spaced low high data.length start boundaries) :
    (pieces data start boundaries).flatten = data.drop start := by
  induction boundaries generalizing start with
  | nil =>
      rw [pieces_nil h.1, List.flatten_singleton]
  | cons boundary boundaries ih =>
      have hlow := h.1
      have hdrop : data.drop boundary = (data.drop start).drop (boundary - start) := by
        rw [List.drop_drop, Nat.add_sub_cancel' (by omega)]
      rw [pieces, List.flatten_cons, ih h.2.2, hdrop, slice, List.take_append_drop]

theorem length_slice_between (hstart : start ≤ boundary) (hboundary : boundary ≤ data.length) :
    (slice data start (boundary - start)).length = boundary - start :=
  length_slice (by omega)

/-- Every piece but the last is as long as a step from one boundary to the next. -/
theorem Spaced.length_of_mem_dropLast (h : Spaced low high data.length start boundaries)
    (hmem : piece ∈ (pieces data start boundaries).dropLast) :
    low ≤ piece.length ∧ piece.length ≤ high := by
  induction boundaries generalizing start with
  | nil =>
      rw [pieces_nil h.1, List.dropLast_singleton] at hmem
      cases hmem
  | cons boundary boundaries ih =>
      obtain ⟨hlow, hhigh, hrest⟩ := h
      rw [pieces, List.dropLast_cons_of_ne_nil hrest.pieces_ne_nil] at hmem
      rcases List.mem_cons.mp hmem with rfl | hmem
      · rw [length_slice_between (by omega) (Nat.le_of_lt hrest.lt_total)]
        omega
      · exact ih hrest hmem

theorem Spaced.length_of_getLast? (h : Spaced low high data.length start boundaries)
    (hlast : (pieces data start boundaries).getLast? = some piece) :
    1 ≤ piece.length ∧ piece.length ≤ high := by
  induction boundaries generalizing start with
  | nil =>
      have hend := h.1
      have hhigh := h.2
      rw [pieces_nil hend, List.getLast?_singleton] at hlast
      cases hlast
      rw [List.length_drop]
      omega
  | cons boundary boundaries ih =>
      obtain ⟨-, -, hrest⟩ := h
      obtain ⟨head, tail, hpieces⟩ := List.exists_cons_of_ne_nil hrest.pieces_ne_nil
      rw [pieces, hpieces, List.getLast?_cons_cons, ← hpieces] at hlast
      exact ih hrest hlast

/-! ### Equal distances -/

/-- How many pieces of the size the elements take. -/
def blockCount (size total : Nat) : Nat := (total + size - 1) / size

def blocks (size : Nat) (data : List α) : List (List α) :=
  (List.range (blockCount size data.length)).map fun i => slice data (i * size) size

variable {size : Nat}

theorem blockCount_zero (hsize : 0 < size) : blockCount size 0 = 0 := by
  rw [blockCount, Nat.div_eq_zero_iff]
  omega

theorem blockCount_of_pos (hsize : 0 < size) (htotal : 0 < total) :
    blockCount size total = blockCount size (total - size) + 1 := by
  rw [blockCount, blockCount, ← Nat.add_div_right _ hsize]
  by_cases hle : size ≤ total
  · congr 1
    omega
  · have hone : (total + size - 1) / size = 1 := Nat.div_eq_of_lt_le (by omega) (by omega)
    have hrest : (total - size + size - 1 + size) / size = 1 :=
      Nat.div_eq_of_lt_le (by omega) (by omega)
    rw [hone, hrest]

theorem lt_blockCount_iff (hsize : 0 < size) {i : Nat} :
    i < blockCount size total ↔ i * size < total := by
  rw [blockCount, Nat.lt_div_iff_mul_lt hsize]
  omega

@[simp]
theorem length_blocks (size : Nat) (data : List α) :
    (blocks size data).length = blockCount size data.length := by
  rw [blocks, List.length_map, List.length_range]

theorem blocks_nil (hsize : 0 < size) : blocks size ([] : List α) = [] := by
  rw [blocks, List.length_nil, blockCount_zero hsize]
  rfl

/-- The first piece, and the pieces of what is behind it. -/
theorem blocks_of_ne_nil (hsize : 0 < size) (hne : data ≠ []) :
    blocks size data = data.take size :: blocks size (data.drop size) := by
  have hslice : ∀ i, slice data ((i + 1) * size) size = slice (data.drop size) (i * size) size := by
    intro i
    rw [slice, slice, List.drop_drop, Nat.succ_mul, Nat.add_comm]
  rw [blocks, blockCount_of_pos hsize (List.length_pos_iff.mpr hne), List.range_succ_eq_map,
    List.map_cons, List.map_map, Nat.zero_mul, slice, List.drop_zero, blocks, List.length_drop]
  congr 1
  exact List.map_congr_left fun i _ => hslice i

theorem mem_blocks (hsize : 0 < size) (hmem : piece ∈ blocks size data) :
    piece ≠ [] ∧ piece.length ≤ size ∧ piece <:+: data := by
  obtain ⟨i, hi, rfl⟩ := List.mem_map.mp hmem
  have hlt := (lt_blockCount_iff hsize).mp (List.mem_range.mp hi)
  refine ⟨?_, ?_, (List.take_prefix _ _).isInfix.trans (List.drop_suffix _ _).isInfix⟩
  · apply List.length_pos_iff.mp
    rw [slice, List.length_take, List.length_drop]
    omega
  · rw [slice, List.length_take]
    exact Nat.min_le_left _ _

theorem length_of_blocks_getElem? {i : Nat} (h : (blocks size data)[i]? = some piece) :
    piece.length = min size (data.length - i * size) := by
  rw [blocks, List.getElem?_map, Option.map_eq_some_iff] at h
  obtain ⟨j, hj, rfl⟩ := h
  obtain ⟨hlt, rfl⟩ := List.getElem?_eq_some_iff.mp hj
  rw [List.getElem_range, slice, List.length_take, List.length_drop]

theorem flatten_slices (size k : Nat) (data : List α) :
    ((List.range k).map fun i => slice data (i * size) size).flatten = data.take (k * size) := by
  induction k with
  | zero => rw [Nat.zero_mul, List.take_zero]; rfl
  | succ k ih =>
      rw [List.range_succ, List.map_append, List.flatten_append, ih, List.map_singleton,
        List.flatten_singleton, slice, Nat.succ_mul, ← List.take_add]

/-- Nothing is lost between the pieces. -/
theorem flatten_blocks (hsize : 0 < size) (data : List α) : (blocks size data).flatten = data := by
  rw [blocks, flatten_slices]
  apply List.take_of_length_le
  apply Nat.not_lt.mp
  intro hleft
  exact Nat.lt_irrefl _ ((lt_blockCount_iff hsize).mpr hleft)

end Cutting
