import NebulaFS.Chunking

/-!
# The chunks of some data

The scan by content keeps the next position at most `maxChunkSize` behind the last boundary, which
bounds the piece after the last boundary as well (`spaced_boundaryLoop`). With fixed chunks the distance
is always the same (`exists_fixedLoop`). Either way the pieces are a partition with bounded pieces, and
they are what `chunkData` looks up one after the other (`chunkLoop_eq`).
-/

namespace NebulaFS

open Cursor Cutting

namespace ChunkManager

variable {platform : Platform} {config : ChunkConfig} {manager : ChunkManager} {data : Bytes}
  {fuel i lastBoundary : Nat}

/-- The shortest a chunk can be that is not the last. -/
def leastSize (config : ChunkConfig) : Nat :=
  if config.dedupStrategy = .content then config.minChunkSize else config.maxChunkSize

/-- The boundaries cut the data as they are meant to. -/
structure Partitions (config : ChunkConfig) (data : Bytes) (found : List Nat) : Prop where
  increasing : found.Pairwise (· < ·)
  inside : ∀ boundary ∈ found, 0 < boundary ∧ boundary < data.length
  flatten : (pieces data 0 found).flatten = data
  size : ∀ piece ∈ (pieces data 0 found).dropLast,
    config.minChunkSize ≤ piece.length ∧ piece.length ≤ config.maxChunkSize
  size_fixed : config.dedupStrategy ≠ .content → ∀ piece ∈ (pieces data 0 found).dropLast,
    piece.length = config.maxChunkSize
  size_last : ∀ piece, (pieces data 0 found).getLast? = some piece →
    1 ≤ piece.length ∧ piece.length ≤ config.maxChunkSize
  empty : data = [] → pieces data 0 found = []

/-! ### The two scans -/

theorem spaced_boundaryLoop (hmin : 1 ≤ config.minChunkSize)
    (hmax : config.minChunkSize ≤ config.maxChunkSize) (hfuel : data.length ≤ i + fuel)
    (hi : i ≤ data.length) (hlast : lastBoundary < data.length) (hle : lastBoundary ≤ i)
    (hnear : i ≤ lastBoundary + config.maxChunkSize) :
    Spaced config.minChunkSize config.maxChunkSize data.length lastBoundary
      (boundaryLoop config data fuel i lastBoundary) := by
  induction fuel generalizing i lastBoundary with
  | zero => exact ⟨hlast, by omega⟩
  | succ fuel ih =>
      rw [boundaryLoop]
      split
      · exact ⟨hlast, by omega⟩
      · have hnext : Spaced config.minChunkSize config.maxChunkSize data.length i
            (boundaryLoop config data fuel (i + 1) i) :=
          ih (by omega) (by omega) (by omega) (by omega) (by omega)
        split
        · exact ⟨by omega, hnear, hnext⟩
        · have hskip : Spaced config.minChunkSize config.maxChunkSize data.length lastBoundary
              (boundaryLoop config data fuel (i + 1) lastBoundary) :=
            ih (by omega) (by omega) hlast (by omega) (by omega)
          split
          · exact hskip
          · split
            · exact ⟨by omega, hnear, hnext⟩
            · exact hskip

theorem spaced_findChunkBoundaries (hmin : 1 ≤ config.minChunkSize)
    (hmax : config.minChunkSize ≤ config.maxChunkSize) (hdata : data ≠ []) :
    Spaced config.minChunkSize config.maxChunkSize data.length 0 (findChunkBoundaries config data) := by
  have hlength : 0 < data.length := List.length_pos_iff.mpr hdata
  rw [findChunkBoundaries]
  split
  · exact ⟨hlength, by omega⟩
  · exact spaced_boundaryLoop hmin hmax (by omega) (by omega) hlength (by omega) (by omega)

theorem exists_fixedLoop (hmax : 0 < config.maxChunkSize) {dataSize start : Nat}
    (hfuel : dataSize ≤ start + config.maxChunkSize + fuel) (hstart : start < dataSize) :
    ∃ found, fixedLoop config dataSize fuel (start + config.maxChunkSize) = some found
      ∧ Spaced config.maxChunkSize config.maxChunkSize dataSize start found := by
  induction fuel generalizing start with
  | zero => exact ⟨[], if_pos (by omega), hstart, by omega⟩
  | succ fuel ih =>
      rw [fixedLoop]
      split
      · exact ⟨[], rfl, hstart, by omega⟩
      · obtain ⟨found, hfound, hspaced⟩ :=
          @ih (start + config.maxChunkSize) (by omega) (by omega)
        refine ⟨(start + config.maxChunkSize) :: found, ?_, Nat.le_refl _, Nat.le_refl _, hspaced⟩
        rw [hfound, Option.map_some]

theorem exists_boundaries (hmin : 1 ≤ config.minChunkSize)
    (hmax : config.minChunkSize ≤ config.maxChunkSize) (hdata : data ≠ []) :
    ∃ found, boundaries config data = some found
      ∧ Spaced (leastSize config) config.maxChunkSize data.length 0 found := by
  rw [boundaries, leastSize]
  split
  · exact ⟨_, rfl, spaced_findChunkBoundaries hmin hmax hdata⟩
  · rw [findFixedBoundaries]
    have hlength : 0 < data.length := List.length_pos_iff.mpr hdata
    have hfixed : ∃ found, fixedLoop config data.length data.length (0 + config.maxChunkSize) = some found
        ∧ Spaced config.maxChunkSize config.maxChunkSize data.length 0 found :=
      exists_fixedLoop (by omega) (by omega) hlength
    rw [Nat.zero_add] at hfixed
    exact hfixed

theorem boundaries_nil (config : ChunkConfig) : boundaries config [] = some [] := by
  rw [boundaries]
  split
  · rfl
  · rfl

/-! ### The chunks -/

/-- The pieces are looked up one after the other. -/
theorem chunkLoop_eq (manager : ChunkManager) (start : Nat) (found : List Nat) :
    chunkLoop platform config data manager start found
      = (findOrCreateAll platform config manager (pieces data start found)).map
        fun result => (result.1.map Prod.snd, result.2) := by
  induction found generalizing manager start with
  | nil =>
      rw [chunkLoop, pieces]
      split
      · rw [findOrCreateAll]
        cases findOrCreateChunk platform config manager (data.drop start) with
        | none => rfl
        | some result => rfl
      · rfl
  | cons boundary found ih =>
      rw [chunkLoop, pieces, findOrCreateAll]
      cases findOrCreateChunk platform config manager (slice data start (boundary - start)) with
      | none => rfl
      | some result =>
          obtain ⟨descriptor, after⟩ := result
          simp only [Option.bind_eq_bind, Option.bind_some, ih]
          cases findOrCreateAll platform config after (pieces data boundary found) with
          | none => rfl
          | some rest => rfl

theorem partitions_of_spaced (hmin : 1 ≤ config.minChunkSize)
    (hmax : config.minChunkSize ≤ config.maxChunkSize) (hdata : data ≠ []) {found : List Nat}
    (h : Spaced (leastSize config) config.maxChunkSize data.length 0 found) :
    Partitions config data found where
  increasing := h.pairwise (by unfold leastSize; split <;> omega)
  inside := fun _ hmem => h.bounds (by unfold leastSize; split <;> omega) hmem
  flatten := h.flatten_pieces
  size := by
    intro piece hmem
    obtain ⟨hlow, hhigh⟩ := h.length_of_mem_dropLast hmem
    refine ⟨le_trans ?_ hlow, hhigh⟩
    unfold leastSize
    split
    · exact Nat.le_refl _
    · exact hmax
  size_fixed := by
    intro hfixed piece hmem
    obtain ⟨hlow, hhigh⟩ := h.length_of_mem_dropLast hmem
    rw [leastSize, if_neg hfixed] at hlow
    exact Nat.le_antisymm hhigh hlow
  size_last := fun _ hlast => h.length_of_getLast? hlast
  empty := fun hempty => absurd hempty hdata

theorem partitions_nil (config : ChunkConfig) : Partitions config [] [] where
  increasing := List.Pairwise.nil
  inside := fun _ hmem => by cases hmem
  flatten := rfl
  size := fun _ hmem => by cases hmem
  size_fixed := fun _ _ hmem => by cases hmem
  size_last := fun _ hlast => by cases hlast
  empty := fun _ => rfl

/-- **Chunking is a bounded partition**, and `chunkData` looks up just its pieces. -/
theorem chunkData_partitions (platform : Platform) (config : ChunkConfig)
    (hmin : 1 ≤ config.minChunkSize) (hmax : config.minChunkSize ≤ config.maxChunkSize) (data : Bytes) :
    ∃ found, boundaries config data = some found ∧ Partitions config data found
      ∧ ∀ manager, chunkData platform config manager data
        = (findOrCreateAll platform config manager (pieces data 0 found)).map
          fun result => (result.1.map Prod.snd, result.2) := by
  have hlookups : ∀ found, boundaries config data = some found → ∀ manager,
      chunkData platform config manager data
        = (findOrCreateAll platform config manager (pieces data 0 found)).map
          fun result => (result.1.map Prod.snd, result.2) := by
    intro found hfound manager
    rw [chunkData, hfound, Option.bind_some, chunkLoop_eq]
  by_cases hdata : data = []
  · subst hdata
    exact ⟨[], boundaries_nil config, partitions_nil config, hlookups [] (boundaries_nil config)⟩
  · obtain ⟨found, hfound, hspaced⟩ := exists_boundaries hmin hmax hdata
    exact ⟨found, hfound, partitions_of_spaced hmin hmax hdata hspaced, hlookups found hfound⟩

/-- Seven bytes in fixed chunks of three. -/
theorem chunkData_partitions_fixed :
    Partitions { dedupStrategy := .fixed, minChunkSize := 1, maxChunkSize := 3 }
      [1, 2, 3, 4, 5, 6, 7] [3, 6] := by
  obtain ⟨found, hfound, hpartitions, -⟩ := chunkData_partitions Platform.reference
    { dedupStrategy := .fixed, minChunkSize := 1, maxChunkSize := 3 } (by decide) (by decide)
    [1, 2, 3, 4, 5, 6, 7]
  have hthree : boundaries { dedupStrategy := .fixed, minChunkSize := 1, maxChunkSize := 3 }
      [1, 2, 3, 4, 5, 6, 7] = some [3, 6] := by decide
  rw [hthree] at hfound
  cases hfound
  exact hpartitions

end ChunkManager

end NebulaFS
