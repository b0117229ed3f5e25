import NebulaFS.Chunking

/-!
# Resynchronised boundaries

After a boundary the scan looks back no further than that boundary: the next decision is
`minChunkSize` bytes later and its window is no longer than that. So the boundaries behind a common
one are those of the common rest of the data (`boundaryLoop_append`).
-/

namespace NebulaFS

open Cursor

namespace ChunkManager

variable {config : ChunkConfig} {data : Bytes} {fuel i lastBoundary boundary : Nat}

theorem le_of_mem_boundaryLoop (h : boundary ∈ boundaryLoop config data fuel i lastBoundary) :
    i ≤ boundary := by
  induction fuel generalizing i lastBoundary with
  | zero => cases h
  | succ fuel ih =>
      have hcons : ∀ last, boundary ∈ i :: boundaryLoop config data fuel (i + 1) last →
          i ≤ boundary := by
        intro last hmem
        rcases List.mem_cons.mp hmem with rfl | hmem
        · exact Nat.le_refl _
        · exact Nat.le_of_succ_le (ih hmem)
      rw [boundaryLoop] at h
      split at h
      · cases h
      · split at h
        · exact hcons i h
        · split at h
          · exact Nat.le_of_succ_le (ih h)
          · split at h
            · exact hcons i h
            · exact Nat.le_of_succ_le (ih h)

/-- The fuel makes no difference once it covers the data. -/
theorem boundaryLoop_fuel (more : Nat) (hfuel : data.length ≤ i + fuel)
    (hmore : data.length ≤ i + more) :
    boundaryLoop config data fuel i lastBoundary = boundaryLoop config data more i lastBoundary := by
  induction fuel generalizing i lastBoundary more with
  | zero =>
      cases more with
      | zero => rfl
      | succ more => rw [boundaryLoop, boundaryLoop, if_pos (by omega)]
  | succ fuel ih =>
      cases more with
      | zero => rw [boundaryLoop, boundaryLoop, if_pos (by omega)]
      | succ more =>
          have hnext : ∀ last, boundaryLoop config data fuel (i + 1) last
              = boundaryLoop config data more (i + 1) last :=
            fun last => ih more (by omega) (by omega)
          rw [boundaryLoop, boundaryLoop, hnext, hnext]

/-- Behind a boundary the scan starts over. -/
theorem boundaryLoop_restarts (hfuel : data.length ≤ i + fuel)
    (h : boundary ∈ boundaryLoop config data fuel i lastBoundary) {later : Nat}
    (hlater : boundary < later) :
    later ∈ boundaryLoop config data fuel i lastBoundary
      ↔ later ∈ boundaryLoop config data data.length (boundary + 1) boundary := by
  induction fuel generalizing i lastBoundary with
  | zero => cases h
  | succ fuel ih =>
      have hskip : ∀ last, boundary ∈ boundaryLoop config data fuel (i + 1) last →
          (later ∈ boundaryLoop config data fuel (i + 1) last
            ↔ later ∈ boundaryLoop config data data.length (boundary + 1) boundary) :=
        fun last hmem => ih (by omega) hmem
      have hcut : boundary ∈ i :: boundaryLoop config data fuel (i + 1) i →
          (later ∈ i :: boundaryLoop config data fuel (i + 1) i
            ↔ later ∈ boundaryLoop config data data.length (boundary + 1) boundary) := by
        intro hmem
        rcases List.mem_cons.mp hmem with rfl | hmem
        · rw [List.mem_cons, or_iff_right (by omega),
            boundaryLoop_fuel data.length (by omega) (by omega)]
        · have hle := le_of_mem_boundaryLoop hmem
          rw [List.mem_cons, or_iff_right (by omega)]
          exact hskip i hmem
      rw [boundaryLoop] at h ⊢
      split at h
      · cases h
      · rw [if_neg ‹_›]
        split at h
        · rw [if_pos ‹_›]
          exact hcut h
        · rw [if_neg ‹_›]
          split at h
          · rw [if_pos ‹_›]
            exact hskip lastBoundary h
          · rw [if_neg ‹_›]
            split at h
            · rw [if_pos ‹_›]
              exact hcut h
            · rw [if_neg ‹_›]
              exact hskip lastBoundary h

/-- A window that lies in the second part of the data is a window of that part. -/
theorem window_append (before : Bytes) (h : windowSize ≤ i) :
    window (before ++ data) (before.length + i) = window data i := by
  have hstart : before.length + i - windowSize = before.length + (i - windowSize) := by omega
  have hrest : (before ++ data).length - (before.length + (i - windowSize))
      = data.length - (i - windowSize) := by
    rw [List.length_append]
    omega
  rw [window, window, if_pos h, if_pos (by omega), hstart, hrest,
    slice_append_right (Nat.le_add_right _ _), Nat.add_sub_cancel_left]

/-- What stands before the last boundary makes no difference. -/
theorem boundaryLoop_append (hmin : windowSize ≤ config.minChunkSize) (before : Bytes)
    (hlast : lastBoundary ≤ i) :
    boundaryLoop config (before ++ data) fuel (before.length + i) (before.length + lastBoundary)
      = (boundaryLoop config data fuel i lastBoundary).map (before.length + ·) := by
  induction fuel generalizing i lastBoundary with
  | zero => rfl
  | succ fuel ih =>
      have hskip : boundaryLoop config (before ++ data) fuel (before.length + i + 1)
            (before.length + lastBoundary)
          = (boundaryLoop config data fuel (i + 1) lastBoundary).map (before.length + ·) :=
        ih (i := i + 1) (by omega)
      have hcut : boundaryLoop config (before ++ data) fuel (before.length + i + 1)
            (before.length + i)
          = (boundaryLoop config data fuel (i + 1) i).map (before.length + ·) :=
        ih (i := i + 1) (by omega)
      have hend : (before ++ data).length ≤ before.length + i ↔ data.length ≤ i := by
        rw [List.length_append]
        omega
      have hsince : before.length + i - (before.length + lastBoundary) = i - lastBoundary := by omega
      rw [boundaryLoop, boundaryLoop, if_congr hend rfl rfl, hsince, hskip, hcut]
      by_cases hshort : i - lastBoundary < config.minChunkSize
      · simp only [if_pos hshort]
        split
        · rfl
        · split <;> rfl
      · rw [window_append before (by omega)]
        simp only [if_neg hshort]
        split
        · rfl
        · split
          · rfl
          · split <;> rfl

/-- The boundaries behind one in the second part of the data. -/
theorem mem_findChunkBoundaries_append (hmin : windowSize ≤ config.minChunkSize)
    {before s : Bytes} {k later : Nat}
    (h : before.length + k ∈ findChunkBoundaries config (before ++ s)) (hlater : k < later) :
    before.length + later ∈ findChunkBoundaries config (before ++ s)
      ↔ later ∈ boundaryLoop config s s.length (k + 1) k := by
  rw [findChunkBoundaries] at h ⊢
  split at h
  · cases h
  · rw [if_neg ‹_›, boundaryLoop_restarts (by omega) h (by omega), Nat.add_assoc,
      boundaryLoop_append hmin before (Nat.le_succ k),
      List.mem_map_of_injective (add_right_injective before.length),
      boundaryLoop_fuel s.length (by rw [List.length_append]; omega) (by omega)]

/-- **Content-defined chunking resynchronises.** Two texts that end alike and have a boundary at the
same place of their common end have the same boundaries from there on. -/
theorem findChunkBoundaries_resynchronise (config : ChunkConfig) (x y s : Bytes) (k : Nat)
    (hmin : 48 ≤ config.minChunkSize)
    (hx : x.length + k ∈ findChunkBoundaries config (x ++ s))
    (hy : y.length + k ∈ findChunkBoundaries config (y ++ s)) :
    ∀ k', k < k' → (x.length + k' ∈ findChunkBoundaries config (x ++ s)
      ↔ y.length + k' ∈ findChunkBoundaries config (y ++ s)) := by
  intro k' hk
  rw [mem_findChunkBoundaries_append hmin hx hk, mem_findChunkBoundaries_append hmin hy hk]

theorem findChunkBoundaries_resynchronise_zeros :
    48 + 96 ∈ findChunkBoundaries { minChunkSize := 48, maxChunkSize := 48 }
        (List.replicate 48 0 ++ List.replicate 100 0)
      ↔ 0 + 96 ∈ findChunkBoundaries { minChunkSize := 48, maxChunkSize := 48 }
        ([] ++ List.replicate 100 0) :=
  findChunkBoundaries_resynchronise { minChunkSize := 48, maxChunkSize := 48 }
    (List.replicate 48 0) [] (List.replicate 100 0) 48 (Nat.le_refl _) (by decide +kernel)
    (by decide +kernel) 96 (by decide)

end ChunkManager

end NebulaFS
