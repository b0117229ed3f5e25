import Mathlib.Algebra.BigOperators.Group.Finset.Basic
import NebulaFS.Proof.ChunkPartition
import NebulaFS.Proof.Deduplication

/-!
# What the totals of a chunk table count

Only a new chunk moves the two totals, and it moves both by its size. So each counts the bytes of the
distinct chunks (`tallied_findOrCreateAll`), where `totalDataSize` is said to count the bytes before
deduplication, and the two are as they should be just in the runs without a repeated chunk
(`accounted_iff_nodup`).
-/

namespace NebulaFS

open Cutting

namespace ChunkManager

/-- A call that looks chunks up and makes those that are new. -/
inductive ChunkCall
  | findOrCreateChunk (data : Bytes)
  | chunkData (data : Bytes)

variable (platform : Platform) (config : ChunkConfig)

def ChunkCall.apply (manager : ChunkManager) : ChunkCall → Option ChunkManager
  | .findOrCreateChunk data =>
      (ChunkManager.findOrCreateChunk platform config manager data).map Prod.snd
  | .chunkData data => (ChunkManager.chunkData platform config manager data).map Prod.snd

/-- The chunks that a call looks up; none if the cutting does not end. -/
def ChunkCall.submitted : ChunkCall → Option (List Bytes)
  | .findOrCreateChunk data => some [data]
  | .chunkData data => (boundaries config data).map (pieces data 0)

def submitted : List ChunkCall → Option (List Bytes)
  | [] => some []
  | call :: calls => do
      let first ← call.submitted config
      let rest ← submitted calls
      return first ++ rest

/-- The two totals are the bytes before and after deduplication. -/
structure Accounted (chunks : List Bytes) (manager : ChunkManager) : Prop where
  data : manager.totalDataSize = UInt64.ofNat (chunks.map List.length).sum
  stored : manager.totalStoredSize = UInt64.ofNat (chunks.toFinset.sum List.length)
  le : manager.totalStoredSize ≤ manager.totalDataSize
  eq_iff : manager.totalStoredSize = manager.totalDataSize ↔ chunks.Nodup

/-- What a table counts when it has seen these chunks. -/
structure Tallied (seen : List Bytes) (manager : ChunkManager) : Prop where
  indexed : Indexed platform config seen manager
  known : ∀ data ∈ seen,
    (manager.hashIndex.lookup (hashKey (digestOf platform config data))).isSome
  stored : manager.totalStoredSize = UInt64.ofNat (seen.toFinset.sum List.length)
  data : manager.totalDataSize = manager.totalStoredSize

/-- The keys tell the chunks apart. -/
def DistinctKeys (chunks : List Bytes) : Prop :=
  ∀ data ∈ chunks, ∀ other ∈ chunks,
    hashKey (digestOf platform config data) = hashKey (digestOf platform config other) →
      data = other

variable {platform config} {manager : ChunkManager} {seen chunks : List Bytes} {data : Bytes}

theorem DistinctPrefixes.keys (hfits : HashFits platform config)
    (h : DistinctPrefixes platform config chunks) : DistinctKeys platform config chunks := by
  intro data hdata other hother hkey
  by_contra hne
  exact (distinctPrefixes_iff hfits).mp h data hdata other hother hne (take_eq_of_hashKey_eq hkey)

/-! ### One chunk -/

theorem tallied_new : Tallied platform config [] {} where
  indexed := by
    intro key index hlookup
    rw [AList.lookup_empty] at hlookup
    cases hlookup
  known := fun _ hmem => by cases hmem
  stored := rfl
  data := rfl

theorem Tallied.of_seen (h : Tallied platform config seen manager) (hmem : data ∈ seen) :
    Tallied platform config (data :: seen) manager where
  indexed := h.indexed.mono (List.subset_cons_self data seen)
  known := by
    intro other hother
    rcases List.mem_cons.mp hother with rfl | hother
    · exact h.known other hmem
    · exact h.known other hother
  stored := by
    rw [List.toFinset_cons, Finset.insert_eq_of_mem (List.mem_toFinset.mpr hmem)]
    exact h.stored
  data := h.data

theorem Tallied.of_new (hfits : HashFits platform config)
    (h : Tallied platform config seen manager) (hnew : data ∉ seen)
    (hlookup : manager.hashIndex.lookup (hashKey (digestOf platform config data)) = none) :
    Tallied platform config (data :: seen)
      { chunks := manager.chunks ++ [descriptorOf platform config data]
        hashIndex := manager.hashIndex.insert (hashKey (digestOf platform config data))
          manager.chunks.length
        totalDataSize := manager.totalDataSize + UInt64.ofNat data.length
        totalStoredSize := manager.totalStoredSize + UInt64.ofNat data.length } where
  indexed := by
    obtain ⟨desc, after, hcall, -, -, hindexed⟩ := findOrCreateChunk_spec hfits h.indexed data
    rw [findOrCreateChunk, computeHash_eq hfits, Option.bind_eq_bind, Option.bind_some] at hcall
    simp only [hlookup] at hcall
    cases hcall
    exact hindexed
  known := by
    intro other hother
    by_cases hkey : hashKey (digestOf platform config other)
        = hashKey (digestOf platform config data)
    · rw [hkey, AList.lookup_insert]
      rfl
    · rw [AList.lookup_insert_ne hkey]
      refine h.known other ((List.mem_cons.mp hother).resolve_left ?_)
      rintro rfl
      exact hkey rfl
  stored := by
    have hfinset : data ∉ seen.toFinset := fun hmem => hnew (List.mem_toFinset.mp hmem)
    rw [List.toFinset_cons, Finset.sum_insert hfinset, UInt64.ofNat_add, h.stored]
    exact UInt64.add_comm _ _
  data := congrArg (· + UInt64.ofNat data.length) h.data

/-- A chunk that was seen changes nothing, a new one moves both totals. -/
theorem tallied_findOrCreateChunk (hfits : HashFits platform config)
    (h : Tallied platform config seen manager)
    (hkeys : DistinctKeys platform config (data :: seen)) :
    ∃ desc after, findOrCreateChunk platform config manager data = some (desc, after)
      ∧ Tallied platform config (data :: seen) after := by
  rw [findOrCreateChunk, computeHash_eq hfits, Option.bind_eq_bind, Option.bind_some]
  cases hlookup : manager.hashIndex.lookup (hashKey (digestOf platform config data)) with
  | some index =>
      obtain ⟨found, hmem, hchunk, hkey⟩ := h.indexed _ index hlookup
      have hsame : found = data :=
        hkeys found (List.mem_cons_of_mem _ hmem) data List.mem_cons_self hkey
      subst hsame
      refine ⟨descriptorOf platform config found, manager, ?_, h.of_seen hmem⟩
      simp only [hchunk, Option.map_some]
  | none =>
      have hnew : data ∉ seen := by
        intro hmem
        have hknown := h.known data hmem
        rw [hlookup] at hknown
        cases hknown
      exact ⟨_, _, rfl, h.of_new hfits hnew hlookup⟩

/-! ### Runs -/

theorem tallied_findOrCreateAll (hfits : HashFits platform config)
    (h : Tallied platform config seen manager)
    (hkeys : DistinctKeys platform config (chunks.reverse ++ seen)) :
    ∃ answers after, findOrCreateAll platform config manager chunks = some (answers, after)
      ∧ Tallied platform config (chunks.reverse ++ seen) after := by
  induction chunks generalizing manager seen with
  | nil => exact ⟨[], manager, rfl, h⟩
  | cons data chunks ih =>
      rw [List.reverse_cons, List.append_assoc, List.singleton_append] at hkeys ⊢
      have hhead : DistinctKeys platform config (data :: seen) :=
        fun one hone other hother =>
          hkeys one (List.mem_append_right _ hone) other (List.mem_append_right _ hother)
      obtain ⟨desc, middle, hcall, hmiddle⟩ := tallied_findOrCreateChunk hfits h hhead
      obtain ⟨answers, after, hrest, hafter⟩ := ih hmiddle hkeys
      refine ⟨(data, desc) :: answers, after, ?_, hafter⟩
      simp only [findOrCreateAll, hcall, hrest, Option.bind_eq_bind, Option.bind_some]
      rfl

/-- The table that a look-up leaves. -/
def afterChunk (platform : Platform) (config : ChunkConfig) (manager : ChunkManager) (data : Bytes) :
    Option ChunkManager :=
  (findOrCreateChunk platform config manager data).map Prod.snd

theorem map_snd_findOrCreateAll (manager : ChunkManager) (chunks : List Bytes) :
    (findOrCreateAll platform config manager chunks).map Prod.snd
      = chunks.foldlM (afterChunk platform config) manager := by
  induction chunks generalizing manager with
  | nil => rfl
  | cons data chunks ih =>
      rw [findOrCreateAll, List.foldlM_cons, afterChunk]
      cases findOrCreateChunk platform config manager data with
      | none => rfl
      | some result =>
          obtain ⟨desc, middle⟩ := result
          simp only [Option.bind_eq_bind, Option.bind_some, Option.map_some, ← ih]
          cases findOrCreateAll platform config middle chunks with
          | none => rfl
          | some found => rfl

theorem ChunkCall.apply_eq {call : ChunkCall} (h : call.submitted config = some chunks) :
    call.apply platform config manager = chunks.foldlM (afterChunk platform config) manager := by
  cases call with
  | findOrCreateChunk data =>
      cases h
      rw [List.foldlM_cons, ChunkCall.apply, afterChunk]
      cases ChunkManager.findOrCreateChunk platform config manager data with
      | none => rfl
      | some result => rfl
  | chunkData data =>
      obtain ⟨found, hfound, rfl⟩ := Option.map_eq_some_iff.mp h
      rw [ChunkCall.apply, ChunkManager.chunkData, hfound, Option.bind_some, chunkLoop_eq,
        Option.map_map, ← map_snd_findOrCreateAll]
      rfl

theorem foldlM_apply_eq {calls : List ChunkCall} (h : submitted config calls = some chunks) :
    calls.foldlM (ChunkCall.apply platform config) manager
      = chunks.foldlM (afterChunk platform config) manager := by
  induction calls generalizing manager chunks with
  | nil =>
      cases h
      rfl
  | cons call calls ih =>
      obtain ⟨first, hfirst, h⟩ := Option.bind_eq_some_iff.mp h
      obtain ⟨rest, hrest, h⟩ := Option.bind_eq_some_iff.mp h
      cases h
      rw [List.foldlM_cons, List.foldlM_append, ChunkCall.apply_eq hfirst]
      apply bind_congr
      intro after
      exact ih hrest

/-! ### Results -/

theorem accounted_of_tallied (h : Tallied platform config chunks.reverse manager) :
    Accounted chunks manager ↔ chunks.Nodup := by
  have hstored := h.stored
  rw [List.toFinset_reverse] at hstored
  constructor
  · intro haccounted
    exact haccounted.eq_iff.mp h.data.symm
  · intro hnodup
    refine ⟨?_, hstored, ?_, iff_of_true h.data.symm hnodup⟩
    · rw [h.data, hstored, List.sum_toFinset List.length hnodup]
    · exact UInt64.le_iff_toNat_le.mpr (congrArg UInt64.toNat h.data.symm).le

/-- **The totals are right just without repetitions.** After a run of calls whose chunks their keys tell
apart, the totals are the bytes before and after deduplication exactly if no chunk was looked up twice.
The calls all return where the digest fits. -/
theorem accounted_iff_nodup (platform : Platform) (config : ChunkConfig) (calls : List ChunkCall)
    {chunks : List Bytes} (hchunks : submitted config calls = some chunks)
    (hdistinct : DistinctPrefixes platform config chunks) :
    (∀ manager, calls.foldlM (ChunkCall.apply platform config) {} = some manager →
      (Accounted chunks manager ↔ chunks.Nodup))
      ∧ (HashFits platform config →
        ∃ manager, calls.foldlM (ChunkCall.apply platform config) {} = some manager) := by
  rw [foldlM_apply_eq hchunks, ← map_snd_findOrCreateAll]
  by_cases hfits : HashFits platform config
  · have hkeys : DistinctKeys platform config (chunks.reverse ++ []) := by
      rw [List.append_nil]
      intro data hdata other hother
      exact hdistinct.keys hfits data (List.mem_reverse.mp hdata) other (List.mem_reverse.mp hother)
    obtain ⟨answers, after, hrun, htallied⟩ := tallied_findOrCreateAll hfits tallied_new hkeys
    rw [List.append_nil] at htallied
    rw [hrun, Option.map_some]
    refine ⟨?_, fun _ => ⟨after, rfl⟩⟩
    intro manager hmanager
    obtain rfl := Option.some.inj hmanager
    exact accounted_of_tallied htallied
  · refine ⟨?_, fun h => absurd h hfits⟩
    intro manager hmanager
    cases chunks with
    | nil =>
        cases hmanager
        have hnew : Tallied platform config [] {} := tallied_new
        exact accounted_of_tallied hnew
    | cons data chunks =>
        rw [findOrCreateAll, findOrCreateChunk_of_not_fits hfits] at hmanager
        cases hmanager

/-- An empty chunk and one from a cut. -/
theorem accounted_iff_nodup_twoChunks :
    ∃ manager, [ChunkCall.findOrCreateChunk [], .chunkData [97, 98, 99]].foldlM
        (ChunkCall.apply Platform.reference {}) {} = some manager
      ∧ (Accounted [[], [97, 98, 99]] manager ↔ [([] : Bytes), [97, 98, 99]].Nodup) := by
  have hfits : HashFits Platform.reference {} := fun h => by cases h.1
  obtain ⟨haccounted, hreturns⟩ := accounted_iff_nodup Platform.reference {}
    [.findOrCreateChunk [], .chunkData [97, 98, 99]] rfl (by
      rw [distinctPrefixes_iff hfits]
      decide +kernel)
  obtain ⟨manager, hrun⟩ := hreturns hfits
  exact ⟨manager, hrun, haccounted manager hrun⟩

/-- Looking three bytes up again adds nothing to `totalDataSize`, which should count six. -/
theorem not_accounted_of_repeated :
    ([ChunkCall.findOrCreateChunk [97, 98, 99], .findOrCreateChunk [97, 98, 99]].foldlM
        (ChunkCall.apply Platform.reference {}) {}).map totalDataSize = some 3
      ∧ ∀ manager, [ChunkCall.findOrCreateChunk [97, 98, 99], .findOrCreateChunk [97, 98, 99]].foldlM
          (ChunkCall.apply Platform.reference {}) {} = some manager →
        ¬ Accounted [[97, 98, 99], [97, 98, 99]] manager := by
  have hthree : ([ChunkCall.findOrCreateChunk [97, 98, 99], .findOrCreateChunk [97, 98, 99]].foldlM
      (ChunkCall.apply Platform.reference {}) {}).map totalDataSize = some 3 := by decide +kernel
  refine ⟨hthree, ?_⟩
  intro manager hrun haccounted
  rw [hrun, Option.map_some, haccounted.data] at hthree
  revert hthree
  decide

end ChunkManager

end NebulaFS
