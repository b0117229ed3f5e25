import NebulaFS.Chunking

/-!
# Sound deduplication

`findOrCreateChunk` knows its chunks by eight bytes of their digest. As long as the digest fits into
its array, it is sound on just the data on which these bytes tell different chunks apart
(`soundOn_iff`), which under `CRC32`, whose digest is always zero, are the data with one chunk only. The
digest that stands for `Blake3` in the OpenSSL build does not fit.
-/

namespace NebulaFS

open LittleEndian

namespace ChunkManager

variable (platform : Platform) (config : ChunkConfig)

/-- The hash of the data, where it fits. -/
def digestOf (data : Bytes) : ChecksumValue := (computeHash platform config data).getD (zeroArr 32)

/-- What `findOrCreateChunk` is to return for the data. -/
def descriptorOf (data : Bytes) : ChunkDescriptor :=
  { hash := digestOf platform config data, originalSize := UInt64.ofNat data.length }

/-- Every call returns the hash and the size of its data, and two calls return the same chunk only
for the same data. -/
def SoundOn (calls : List Bytes) : Prop :=
  ∃ answers manager, findOrCreateAll platform config {} calls = some (answers, manager)
    ∧ answers.map Prod.fst = calls
    ∧ (∀ answer ∈ answers, computeHash platform config answer.1 = some answer.2.hash
        ∧ answer.2.originalSize = UInt64.ofNat answer.1.length)
    ∧ ∀ answer ∈ answers, ∀ other ∈ answers, answer.2 = other.2 → answer.1 = other.1

/-- Different chunks of these differ in the first eight bytes of their hash. -/
def DistinctPrefixes (calls : List Bytes) : Prop :=
  ∀ data ∈ calls, ∀ other ∈ calls, data ≠ other →
    ∀ hash ∈ computeHash platform config data, ∀ otherHash ∈ computeHash platform config other,
      hash.toList.take 8 ≠ otherHash.toList.take 8

/-! ### The table -/

/-- The chunk under a key. -/
def chunkAt (manager : ChunkManager) (key : UInt64) : Option ChunkDescriptor :=
  (manager.hashIndex.lookup key).bind fun index => manager.chunks[index]?

/-- Every key of the index leads to the chunk of some data with that key, of those seen. -/
def Indexed (seen : List Bytes) (manager : ChunkManager) : Prop :=
  ∀ key index, manager.hashIndex.lookup key = some index →
    ∃ data ∈ seen, manager.chunks[index]? = some (descriptorOf platform config data)
      ∧ hashKey (digestOf platform config data) = key

variable {platform config} {manager : ChunkManager} {seen calls : List Bytes}

theorem computeHash_eq (hfits : HashFits platform config) (data : Bytes) :
    computeHash platform config data = some (digestOf platform config data) := by
  obtain ⟨hash, hhash⟩ :=
    Option.isSome_iff_exists.mp ((isSome_computeHash_iff platform config data).mpr hfits)
  rw [digestOf, hhash, Option.getD_some]

theorem findOrCreateChunk_of_not_fits (h : ¬ HashFits platform config) (data : Bytes) :
    findOrCreateChunk platform config manager data = none := by
  have hnone : computeHash platform config data = none :=
    Option.not_isSome_iff_eq_none.mp ((isSome_computeHash_iff platform config data).not.mpr h)
  rw [findOrCreateChunk, hnone]
  rfl

theorem Indexed.mono {more : List Bytes} (h : Indexed platform config seen manager)
    (hsub : seen ⊆ more) : Indexed platform config more manager := by
  intro key index hlookup
  obtain ⟨data, hmem, hchunk, hkey⟩ := h key index hlookup
  exact ⟨data, hsub hmem, hchunk, hkey⟩

/-- A call leaves its answer under its key, and what was there before where it was. -/
theorem findOrCreateChunk_spec (hfits : HashFits platform config)
    (h : Indexed platform config seen manager) (data : Bytes) :
    ∃ desc after, findOrCreateChunk platform config manager data = some (desc, after)
      ∧ after.chunkAt (hashKey (digestOf platform config data)) = some desc
      ∧ (∀ key chunk, manager.chunkAt key = some chunk → after.chunkAt key = some chunk)
      ∧ Indexed platform config (data :: seen) after := by
  rw [findOrCreateChunk, computeHash_eq hfits, Option.bind_eq_bind, Option.bind_some]
  cases hlookup : manager.hashIndex.lookup (hashKey (digestOf platform config data)) with
  | some index =>
      obtain ⟨found, -, hchunk, -⟩ := h _ index hlookup
      refine ⟨descriptorOf platform config found, manager, ?_, ?_, fun _ _ hkept => hkept,
        h.mono (List.subset_cons_self data seen)⟩
      · simp only [hchunk, Option.map_some]
      · rw [chunkAt, hlookup, Option.bind_some, hchunk]
  | none =>
      have hnew : (manager.chunks ++ [descriptorOf platform config data])[manager.chunks.length]?
          = some (descriptorOf platform config data) := List.getElem?_concat_length
      have hold : ∀ (index : Nat) (chunk : ChunkDescriptor), manager.chunks[index]? = some chunk →
          (manager.chunks ++ [descriptorOf platform config data])[index]? = some chunk := by
        intro index chunk hchunk
        rw [List.getElem?_append_left (List.getElem?_eq_some_iff.mp hchunk).1, hchunk]
      refine ⟨descriptorOf platform config data, _, rfl, ?_, ?_, ?_⟩
      · rw [chunkAt, AList.lookup_insert, Option.bind_some]
        exact hnew
      · intro key chunk hkept
        have hkey : key ≠ hashKey (digestOf platform config data) := by
          rintro rfl
          rw [chunkAt, hlookup] at hkept
          cases hkept
        rw [chunkAt, Option.bind_eq_some_iff] at hkept
        obtain ⟨index, hindex, hchunk⟩ := hkept
        rw [chunkAt, AList.lookup_insert_ne hkey, hindex, Option.bind_some]
        exact hold index chunk hchunk
      · intro key index hindex
        by_cases hkey : key = hashKey (digestOf platform config data)
        · rw [hkey, AList.lookup_insert] at hindex
          cases hindex
          exact ⟨data, List.mem_cons_self, hnew, hkey.symm⟩
        · rw [AList.lookup_insert_ne hkey] at hindex
          obtain ⟨found, hmem, hchunk, hfound⟩ := h key index hindex
          exact ⟨found, List.mem_cons_of_mem _ hmem, hold index _ hchunk, hfound⟩

/-- The answer to a call is what the table has under its key in the end. -/
theorem findOrCreateAll_spec (hfits : HashFits platform config)
    (h : Indexed platform config seen manager) (calls : List Bytes) :
    ∃ answers after, findOrCreateAll platform config manager calls = some (answers, after)
      ∧ answers.map Prod.fst = calls
      ∧ (∀ answer ∈ answers,
          after.chunkAt (hashKey (digestOf platform config answer.1)) = some answer.2)
      ∧ (∀ key chunk, manager.chunkAt key = some chunk → after.chunkAt key = some chunk)
      ∧ ∃ all, all ⊆ seen ++ calls ∧ Indexed platform config all after := by
  induction calls generalizing manager seen with
  | nil =>
      refine ⟨[], manager, rfl, rfl, fun _ hmem => (by cases hmem), fun _ _ hkept => hkept, seen,
        ?_, h⟩
      rw [List.append_nil]
      exact List.Subset.refl seen
  | cons data calls ih =>
      obtain ⟨desc, middle, hstep, hdesc, hkept, hmiddle⟩ := findOrCreateChunk_spec hfits h data
      obtain ⟨answers, after, hrest, hfst, hanswers, hkept', all, hall, hafter⟩ := ih hmiddle
      refine ⟨(data, desc) :: answers, after, ?_, ?_, ?_, ?_, all, ?_, hafter⟩
      · simp only [findOrCreateAll, hstep, hrest, Option.bind_eq_bind, Option.bind_some]
        rfl
      · rw [List.map_cons, hfst]
      · intro answer hmem
        rcases List.mem_cons.mp hmem with rfl | hmem
        · exact hkept' _ _ hdesc
        · exact hanswers answer hmem
      · intro key chunk hchunk
        exact hkept' key chunk (hkept key chunk hchunk)
      · intro found hmem
        have := hall hmem
        simp only [List.mem_append, List.mem_cons] at this ⊢
        tauto

/-! ### Results -/

/-- Deduplication is sound on just the data that their keys tell apart. -/
theorem soundOn_iff (hfits : HashFits platform config) (calls : List Bytes) :
    SoundOn platform config calls
      ↔ ∀ data ∈ calls, ∀ other ∈ calls,
          hashKey (digestOf platform config data) = hashKey (digestOf platform config other) →
            data = other := by
  have hstart : Indexed platform config [] {} := by
    intro key index hlookup
    rw [AList.lookup_empty] at hlookup
    cases hlookup
  obtain ⟨answers, after, hrun, hfst, hanswers, -, all, hall, hafter⟩ :=
    findOrCreateAll_spec hfits hstart calls
  constructor
  · rintro ⟨found, last, hfound, -, -, hsame⟩ data hdata other hother hkey
    obtain ⟨rfl, rfl⟩ := Prod.mk.inj (Option.some.inj (hrun.symm.trans hfound))
    rw [← hfst] at hdata hother
    obtain ⟨answer, hmem, rfl⟩ := List.mem_map.mp hdata
    obtain ⟨second, hmem', rfl⟩ := List.mem_map.mp hother
    have hdesc := hanswers answer hmem
    rw [hkey, hanswers second hmem'] at hdesc
    exact hsame answer hmem second hmem' (Option.some.inj hdesc).symm
  · intro hinjective
    have hdescriptor : ∀ answer ∈ answers, answer.2 = descriptorOf platform config answer.1 := by
      intro answer hmem
      have hdesc := hanswers answer hmem
      rw [chunkAt, Option.bind_eq_some_iff] at hdesc
      obtain ⟨index, hindex, hchunk⟩ := hdesc
      obtain ⟨data, hdata, hdescribed, hkey⟩ := hafter _ index hindex
      have hcall : answer.1 ∈ calls := hfst ▸ List.mem_map_of_mem hmem
      rw [hinjective data (hall hdata) answer.1 hcall hkey] at hdescribed
      exact Option.some.inj (hchunk.symm.trans hdescribed)
    refine ⟨answers, after, hrun, hfst, ?_, ?_⟩
    · intro answer hmem
      rw [hdescriptor answer hmem]
      exact ⟨computeHash_eq hfits answer.1, rfl⟩
    · intro answer hmem other hmem' hsame
      apply hinjective answer.1 (hfst ▸ List.mem_map_of_mem hmem) other.1
        (hfst ▸ List.mem_map_of_mem hmem')
      rw [hdescriptor answer hmem, hdescriptor other hmem'] at hsame
      exact congrArg hashKey (congrArg ChunkDescriptor.hash hsame)

theorem digestOf_of_crc32 (h : config.hashAlgorithm = .crc32) (data : Bytes) :
    digestOf platform config data = zeroArr 32 := by
  rw [digestOf, computeHash, h]
  rfl

theorem take_eq_of_hashKey_eq {hash other : ChecksumValue} (h : hashKey hash = hashKey other) :
    hash.toList.take 8 = other.toList.take 8 := by
  have hlength : ∀ digest : ChecksumValue, (digest.toList.take 8).length = 8 := by
    intro digest
    rw [List.length_take, List.Vector.toList_length]
    rfl
  have hbound : ∀ digest : ChecksumValue, leValue (digest.toList.take 8) < 2 ^ 64 := by
    intro digest
    have hlt := leValue_lt (digest.toList.take 8)
    rw [hlength] at hlt
    exact hlt
  apply leValue_inj ((hlength hash).trans (hlength other).symm)
  rw [← UInt64.toNat_ofNat_of_lt' (hbound hash), ← UInt64.toNat_ofNat_of_lt' (hbound other)]
  exact congrArg UInt64.toNat h

/-- Without a hash no call returns. -/
theorem soundOn_iff_of_not_fits (h : ¬ HashFits platform config) :
    SoundOn platform config calls ↔ calls = [] := by
  constructor
  · rintro ⟨answers, manager, hrun, -⟩
    cases calls with
    | nil => rfl
    | cons data calls =>
        rw [findOrCreateAll, findOrCreateChunk_of_not_fits h] at hrun
        cases hrun
  · rintro rfl
    exact ⟨[], {}, rfl, rfl, fun _ hmem => (by cases hmem), fun _ hmem => (by cases hmem)⟩

theorem distinctPrefixes_iff (hfits : HashFits platform config) {calls : List Bytes} :
    DistinctPrefixes platform config calls
      ↔ ∀ data ∈ calls, ∀ other ∈ calls, data ≠ other →
        (digestOf platform config data).toList.take 8
          ≠ (digestOf platform config other).toList.take 8 := by
  simp only [DistinctPrefixes, computeHash_eq hfits, Option.mem_some_iff, forall_eq']

/-- **When deduplication is sound.** With digests that tell the data apart in their first eight
bytes, as those of `SHA256` and `Blake3` are taken to do, it is whenever they fit into the array; under
`CRC32` it is just when all calls are for the same data. -/
theorem soundOn_iff_of_distinctPrefixes (calls : List Bytes)
    (hdistinct : config.hashAlgorithm ≠ .crc32 → DistinctPrefixes platform config calls) :
    SoundOn platform config calls
      ↔ (config.hashAlgorithm = .crc32 → ∀ data ∈ calls, ∀ other ∈ calls, data = other)
        ∧ (config.hashAlgorithm = .blake3 → platform.hasOpenssl = true → calls = []) := by
  by_cases hfits : HashFits platform config
  · have hblake : config.hashAlgorithm = .blake3 → platform.hasOpenssl = true → calls = [] :=
      fun hblake hopenssl => absurd ⟨hblake, hopenssl⟩ hfits
    rw [soundOn_iff hfits, and_iff_left hblake]
    by_cases halgo : config.hashAlgorithm = .crc32
    · simp only [halgo, forall_true_left]
      constructor
      · intro hinjective data hdata other hother
        apply hinjective data hdata other hother
        rw [digestOf_of_crc32 halgo, digestOf_of_crc32 halgo]
      · intro hsame data hdata other hother _
        exact hsame data hdata other hother
    · refine iff_of_true ?_ fun hcrc => absurd hcrc halgo
      intro data hdata other hother hkey
      by_contra hne
      exact (distinctPrefixes_iff hfits).mp (hdistinct halgo) data hdata other hother hne
        (take_eq_of_hashKey_eq hkey)
  · obtain ⟨hblake, hopenssl⟩ := not_not.mp hfits
    rw [soundOn_iff_of_not_fits hfits]
    simp [hblake, hopenssl]

theorem soundOn_iff_sha256 :
    SoundOn Platform.reference { hashAlgorithm := .sha256 } [[], [97, 98, 99], []] := by
  have hfits : HashFits Platform.reference { hashAlgorithm := .sha256 } := fun h => by cases h.1
  refine (soundOn_iff_of_distinctPrefixes _ fun _ => ?_).mpr ⟨by decide, by decide⟩
  rw [distinctPrefixes_iff hfits]
  decide +kernel

/-- Two chunks of different sizes become one under `CRC32`. -/
theorem not_soundOn_crc32 :
    ¬ SoundOn Platform.reference { hashAlgorithm := .crc32 } [[1], [2, 3]] := by
  have hfits : HashFits Platform.reference { hashAlgorithm := .crc32 } := fun h => by cases h.1
  rw [soundOn_iff hfits]
  intro hinjective
  have hsame := hinjective [1] (by decide) [2, 3] (by decide) (by
    rw [digestOf_of_crc32 rfl, digestOf_of_crc32 rfl])
  cases hsame

end ChunkManager

end NebulaFS
