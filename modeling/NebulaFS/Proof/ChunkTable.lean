import NebulaFS.Chunking
import NebulaFS.Proof.VarIntLemmas

/-!
# The chunk table and its encoding

The index of a table leads from the key of each chunk to its position, and from nothing else
(`OneToOne`). So the chunks of a table have different keys, and the decoder, which registers them again
one by one, keeps them all (`chunk_table_restored`).

`deserialize` checks once how many bytes a chunk takes at least. A chunk whose varints are longer uses up
the bytes that were meant for its two flags, and these are read without a check
(`deserialize_inBounds_iff_flags`).
-/

namespace NebulaFS

open Cursor

namespace ChunkManager

/-! ### Tables -/

/-- A call that adds a chunk to the table. -/
inductive TableCall
  | findOrCreateChunk (data : Bytes)
  | registerChunk (chunk : ChunkDescriptor)

def TableCall.apply (platform : Platform) (config : ChunkConfig) (manager : ChunkManager) :
    TableCall → Option ChunkManager
  | .findOrCreateChunk data =>
      (ChunkManager.findOrCreateChunk platform config manager data).map Prod.snd
  | .registerChunk chunk => some (manager.registerChunk chunk)

/-- The key of a chunk leads to its position, and no other key leads anywhere. -/
def OneToOne (manager : ChunkManager) : Prop :=
  ∀ key index, manager.hashIndex.lookup key = some index
    ↔ ∃ chunk, manager.chunks[index]? = some chunk ∧ hashKey chunk.hash = key

/-- What was read back answers like the table. -/
structure SameAnswers (restored manager : ChunkManager) : Prop where
  chunks : restored.chunks = manager.chunks
  getChunk : ∀ hash, restored.getChunk hash = manager.getChunk hash
  hasChunk : ∀ hash, restored.hasChunk hash = manager.hasChunk hash

variable {manager restored : ChunkManager} {chunk : ChunkDescriptor} {key : UInt64}

theorem oneToOne_new : OneToOne {} := by
  intro key index
  simp

theorem OneToOne.lookup_eq_none_iff (h : OneToOne manager) :
    manager.hashIndex.lookup key = none ↔ ∀ chunk ∈ manager.chunks, hashKey chunk.hash ≠ key := by
  constructor
  · intro hnone chunk hmem hkey
    obtain ⟨index, hindex⟩ := List.mem_iff_getElem?.mp hmem
    rw [(h key index).mpr ⟨chunk, hindex, hkey⟩] at hnone
    cases hnone
  · intro hall
    cases hlookup : manager.hashIndex.lookup key with
    | none => rfl
    | some index =>
        obtain ⟨chunk, hchunk, hkey⟩ := (h key index).mp hlookup
        exact absurd hkey (hall chunk (List.mem_of_getElem? hchunk))

/-- The chunks of a table have different keys. -/
theorem OneToOne.nodup (h : OneToOne manager) :
    (manager.chunks.map fun chunk => hashKey chunk.hash).Nodup := by
  rw [List.nodup_iff_injective_getElem]
  rintro ⟨i, hi⟩ ⟨j, hj⟩ hsame
  rw [List.length_map] at hi hj
  simp only [List.getElem_map] at hsame
  have hfirst := (h _ i).mpr ⟨manager.chunks[i], List.getElem?_eq_getElem hi, rfl⟩
  have hsecond := (h _ j).mpr ⟨manager.chunks[j], List.getElem?_eq_getElem hj, rfl⟩
  rw [hsame, hsecond] at hfirst
  rw [Fin.mk.injEq, Option.some.inj hfirst]

/-- A chunk with a new key may go behind the others, whatever the totals. -/
theorem OneToOne.append (h : OneToOne manager)
    (hnew : manager.hashIndex.lookup (hashKey chunk.hash) = none)
    (totalDataSize totalStoredSize : UInt64) :
    OneToOne
      { chunks := manager.chunks ++ [chunk]
        hashIndex := manager.hashIndex.insert (hashKey chunk.hash) manager.chunks.length
        totalDataSize := totalDataSize
        totalStoredSize := totalStoredSize } := by
  have hothers := h.lookup_eq_none_iff.mp hnew
  intro key index
  by_cases hlast : index = manager.chunks.length
  · subst hlast
    have hnone : ∀ key, manager.hashIndex.lookup key ≠ some manager.chunks.length := by
      intro key hlookup
      obtain ⟨other, hother, -⟩ := (h key _).mp hlookup
      rw [List.getElem?_eq_none (Nat.le_refl _)] at hother
      cases hother
    simp only [List.getElem?_concat_length, Option.some.injEq, exists_eq_left']
    by_cases hkey : key = hashKey chunk.hash
    · rw [hkey, AList.lookup_insert]
      exact iff_of_true rfl rfl
    · rw [AList.lookup_insert_ne hkey]
      exact iff_of_false (hnone key) fun hsame => hkey hsame.symm
  · have hsame : (manager.chunks ++ [chunk])[index]? = manager.chunks[index]? := by
      by_cases hlt : index < manager.chunks.length
      · exact List.getElem?_append_left hlt
      · rw [List.getElem?_eq_none (by rw [List.length_append, List.length_singleton]; omega),
          List.getElem?_eq_none (by omega)]
    simp only [hsame]
    by_cases hkey : key = hashKey chunk.hash
    · rw [hkey, AList.lookup_insert, Option.some.injEq]
      refine iff_of_false (fun heq => hlast heq.symm) ?_
      rintro ⟨other, hother, hotherKey⟩
      exact hothers other (List.mem_of_getElem? hother) hotherKey
    · rw [AList.lookup_insert_ne hkey]
      exact h key index

theorem OneToOne.registerChunk (h : OneToOne manager) (chunk : ChunkDescriptor) :
    OneToOne (manager.registerChunk chunk) := by
  rw [ChunkManager.registerChunk]
  split
  · exact h
  · exact h.append ‹_› _ _

/-- A look-up with a hash finds its chunk, as the index leads nowhere behind the end. -/
theorem OneToOne.findOrCreateChunk (h : OneToOne manager) {platform : Platform}
    {config : ChunkConfig} {data : Bytes} {hash : ChecksumValue}
    (hhash : computeHash platform config data = some hash) :
    ∃ desc after, ChunkManager.findOrCreateChunk platform config manager data = some (desc, after)
      ∧ OneToOne after := by
  rw [ChunkManager.findOrCreateChunk, hhash, Option.bind_eq_bind, Option.bind_some]
  cases hlookup : manager.hashIndex.lookup (hashKey hash) with
  | some index =>
      obtain ⟨chunk, hchunk, -⟩ := (h _ index).mp hlookup
      refine ⟨chunk, manager, ?_, h⟩
      simp only [hchunk, Option.map_some]
  | none =>
      refine ⟨_, _, rfl, h.append ?_ _ _⟩
      exact hlookup

/-- A call keeps the table as it is to be, and it returns where the digest fits. -/
theorem OneToOne.apply (h : OneToOne manager) (platform : Platform) (config : ChunkConfig)
    (call : TableCall) :
    (∀ after, call.apply platform config manager = some after → OneToOne after)
      ∧ (HashFits platform config → ∃ after, call.apply platform config manager = some after) := by
  cases call with
  | registerChunk chunk =>
      refine ⟨?_, fun _ => ⟨_, rfl⟩⟩
      rintro after ⟨⟩
      exact h.registerChunk chunk
  | findOrCreateChunk data =>
      cases hhash : computeHash platform config data with
      | none =>
          have hnone : ChunkManager.findOrCreateChunk platform config manager data = none := by
            rw [ChunkManager.findOrCreateChunk, hhash]
            rfl
          have hfits := (isSome_computeHash_iff platform config data).not.mp (by rw [hhash]; decide)
          refine ⟨fun after hcall => ?_, fun hall => absurd hall hfits⟩
          rw [TableCall.apply, hnone] at hcall
          cases hcall
      | some hash =>
          obtain ⟨desc, found, hcall, hfound⟩ := h.findOrCreateChunk hhash
          have happly : TableCall.apply platform config manager (.findOrCreateChunk data)
              = some found := by
            rw [TableCall.apply, hcall, Option.map_some]
          refine ⟨fun after hafter => ?_, fun _ => ⟨found, happly⟩⟩
          rw [happly] at hafter
          cases hafter
          exact hfound

theorem OneToOne.run (h : OneToOne manager) (platform : Platform) (config : ChunkConfig)
    (calls : List TableCall) :
    (∀ after, calls.foldlM (TableCall.apply platform config) manager = some after → OneToOne after)
      ∧ (HashFits platform config →
        ∃ after, calls.foldlM (TableCall.apply platform config) manager = some after) := by
  induction calls generalizing manager with
  | nil =>
      refine ⟨?_, fun _ => ⟨manager, rfl⟩⟩
      rintro after ⟨⟩
      exact h
  | cons call calls ih =>
      obtain ⟨hkept, hreturns⟩ := h.apply platform config call
      constructor
      · intro after hrun
        rw [List.foldlM_cons] at hrun
        obtain ⟨middle, hcall, hrest⟩ := Option.bind_eq_some_iff.mp hrun
        exact (ih (hkept middle hcall)).1 after hrest
      · intro hfits
        obtain ⟨middle, hcall⟩ := hreturns hfits
        obtain ⟨after, hrest⟩ := (ih (hkept middle hcall)).2 hfits
        exact ⟨after, by rw [List.foldlM_cons, hcall]; exact hrest⟩

theorem OneToOne.sameAnswers (hrestored : OneToOne restored) (h : OneToOne manager)
    (hchunks : restored.chunks = manager.chunks) : SameAnswers restored manager := by
  have hlookup : ∀ key, restored.hashIndex.lookup key = manager.hashIndex.lookup key := by
    intro key
    apply Option.ext
    intro index
    rw [hrestored key index, h key index, hchunks]
  refine ⟨hchunks, ?_, ?_⟩
  · intro hash
    rw [ChunkManager.getChunk, ChunkManager.getChunk, hlookup, hchunks]
  · intro hash
    rw [ChunkManager.hasChunk, ChunkManager.hasChunk, hlookup]

/-! ### Reading a table back -/

theorem readChunk_of_remaining {data rest : Bytes} {offset : Nat}
    (h : Remaining data offset (serializeChunk chunk ++ rest)) :
    readChunk data offset = .ok (chunk, offset + (serializeChunk chunk).length) := by
  have hlength := h.length_eq
  simp only [serializeChunk, List.length_append, List.append_assoc, List.cons_append, List.nil_append,
    List.Vector.toList_length] at h hlength
  have h1 := h.advance
  rw [List.Vector.toList_length] at h1
  have h2 := h1.advance
  have h3 := h2.advance
  have h4 := h3.advance
  have hflag : decide ((if chunk.encrypted = true then (1 : UInt8) else 0) ≠ 0) = chunk.encrypted := by
    cases chunk.encrypted <;> rfl
  rw [readChunk, require_of_true (by simp; omega), readArr_of_remaining h]
  simp only [bind, Except.bind]
  rw [readVarInt_of_remaining _ h1]
  simp only
  rw [readVarInt_of_remaining _ h2]
  simp only
  rw [readVarInt_of_remaining _ h3]
  simp only
  rw [readByte_of_remaining h4]
  simp only
  rw [readByte_of_remaining h4.advance_one]
  simp only [pure, Except.pure, serializeChunk, List.length_append, List.Vector.toList_length,
    List.length_cons, List.length_nil, hflag]
  congr 2
  omega

theorem minChunkSize_le (chunk : ChunkDescriptor) : minChunkSize ≤ (serializeChunk chunk).length := by
  have hoffset := VarInt.length_encode_pos chunk.offset
  have hcompressed := VarInt.length_encode_pos chunk.compressedSize
  have horiginal := VarInt.length_encode_pos chunk.originalSize
  simp only [serializeChunk, minChunkSize, List.length_append, List.Vector.toList_length,
    List.length_cons, List.length_nil]
  omega

/-- Registering chunks with different keys keeps them all. -/
theorem foldl_registerChunk (h : OneToOne manager) (chunks : List ChunkDescriptor)
    (hnodup : ((manager.chunks ++ chunks).map fun chunk => hashKey chunk.hash).Nodup) :
    (chunks.foldl ChunkManager.registerChunk manager).chunks = manager.chunks ++ chunks
      ∧ OneToOne (chunks.foldl ChunkManager.registerChunk manager) := by
  induction chunks generalizing manager with
  | nil => exact ⟨(List.append_nil _).symm, h⟩
  | cons chunk chunks ih =>
      have hnew : manager.hashIndex.lookup (hashKey chunk.hash) = none := by
        rw [h.lookup_eq_none_iff]
        intro other hmem hkey
        rw [List.map_append, List.nodup_append] at hnodup
        exact hnodup.2.2 _ (List.mem_map_of_mem hmem) _ (List.mem_map_of_mem List.mem_cons_self) hkey
      have hchunks : (manager.registerChunk chunk).chunks = manager.chunks ++ [chunk] := by
        rw [ChunkManager.registerChunk, hnew]
      have hrest := ih (h.registerChunk chunk) (by
        rw [hchunks, List.append_assoc, List.singleton_append]
        exact hnodup)
      rw [hchunks, List.append_assoc, List.singleton_append] at hrest
      exact hrest

theorem deserialize_serialize (h : OneToOne manager) (hcount : manager.chunks.length ≤ maxChunks) :
    ∃ restored, deserialize manager.serialize = (restored, none) ∧ SameAnswers restored manager := by
  have hstart := remaining_start manager.serialize
  nth_rewrite 2 [serialize] at hstart
  have hbody := hstart.advance
  rw [Nat.zero_add, ← List.append_nil (List.flatMap serializeChunk _)] at hbody
  have hlength : (UInt64.ofNat manager.chunks.length).toNat = manager.chunks.length := by
    apply toNat_ofNat_of_lt
    rw [maxChunks] at hcount
    omega
  have hleast := length_mul_le_length_flatMap fun chunk (_ : chunk ∈ manager.chunks) =>
    minChunkSize_le chunk
  have hroom : manager.chunks.length
      ≤ (manager.serialize.length - (VarInt.encode (UInt64.ofNat manager.chunks.length)).length)
        / minChunkSize := by
    rw [Nat.le_div_iff_mul_le (by decide), serialize, List.length_append, Nat.add_sub_cancel_left]
    exact hleast
  have hread : ∀ chunk ∈ manager.chunks, ∀ pos rest,
      Remaining manager.serialize pos (serializeChunk chunk ++ rest) →
      readChunk manager.serialize pos = .ok (chunk, pos + (serializeChunk chunk).length) :=
    fun _ _ _ _ hchunk => readChunk_of_remaining hchunk
  have hloop := readMany_flatMap hread hbody
  obtain ⟨hchunks, hone⟩ := foldl_registerChunk oneToOne_new manager.chunks h.nodup
  refine ⟨manager.chunks.foldl ChunkManager.registerChunk {}, ?_, hone.sameAnswers h hchunks⟩
  rw [deserialize, readVarInt_of_remaining _ hstart]
  simp only [hlength, Nat.zero_add]
  rw [if_neg (Nat.not_lt.mpr hcount), if_neg (Nat.not_lt.mpr hroom), hloop]
  simp only [collected, List.map_id']

/-- **A chunk table comes back as it was.** After any calls on a new table its index is one-to-one, and
if it has no more chunks than the decoder takes, its encoding is decoded to a table with the same
answers. The calls all return unless the digest leaves its array. -/
theorem chunk_table_restored (platform : Platform) (config : ChunkConfig) (calls : List TableCall) :
    (∀ manager, calls.foldlM (TableCall.apply platform config) {} = some manager →
      OneToOne manager
        ∧ (manager.chunks.length ≤ maxChunks → ∃ restored,
          deserialize manager.serialize = (restored, none) ∧ SameAnswers restored manager))
      ∧ (HashFits platform config →
        ∃ manager, calls.foldlM (TableCall.apply platform config) {} = some manager) := by
  obtain ⟨hkept, hreturns⟩ := oneToOne_new.run platform config calls
  refine ⟨fun manager hrun => ?_, hreturns⟩
  exact ⟨hkept manager hrun, deserialize_serialize (hkept manager hrun)⟩

/-- The second of three chunks has the hash of the first. -/
theorem chunk_table_restored_of_three :
    let first : ChunkDescriptor := { offset := 300, encrypted := true }
    let last : ChunkDescriptor := { hash := .ofFn fun _ => 1 }
    ∃ manager restored, [TableCall.registerChunk first, .registerChunk { offset := 7 },
        .registerChunk last].foldlM (TableCall.apply Platform.reference {}) {} = some manager
      ∧ deserialize manager.serialize = (restored, none) ∧ restored.chunks = [first, last] := by
  intro first last
  obtain ⟨-, hrestored⟩ := (chunk_table_restored Platform.reference {}
    [.registerChunk first, .registerChunk { offset := 7 }, .registerChunk last]).1 _ rfl
  obtain ⟨restored, hdecode, hsame⟩ := hrestored (by decide +kernel)
  refine ⟨_, restored, rfl, hdecode, ?_⟩
  rw [hsame.chunks]
  decide +kernel

/-! ### Where the decoder leaves its input -/

variable {data : Bytes} {offset flagsAt : Nat}

/-- A hash and three varints begin at the offset, and the two flags would follow them. -/
def HeadAt (data : Bytes) (offset flagsAt : Nat) : Prop :=
  offset + 32 ≤ data.length ∧ ∃ chunkOffset compressedAt compressedSize originalAt originalSize,
    readVarInt .corruptChunkTable data (offset + 32) = .ok (chunkOffset, compressedAt)
      ∧ readVarInt .corruptChunkTable data compressedAt = .ok (compressedSize, originalAt)
      ∧ readVarInt .corruptChunkTable data originalAt = .ok (originalSize, flagsAt)

/-- A whole chunk stands at the offset, up to the next one. -/
def ChunkAt (data : Bytes) (offset next : Nat) : Prop :=
  ∃ flagsAt, HeadAt data offset flagsAt ∧ flagsAt + 2 ≤ data.length ∧ next = flagsAt + 2

theorem HeadAt.readChunk_eq (h : HeadAt data offset flagsAt) :
    flagsAt ≤ data.length ∧ ∃ head : ChunkDescriptor, readChunk data offset = do
      let (compression, offset) ← readByte data flagsAt
      let (encrypted, offset) ← readByte data offset
      return ({ head with compression := compression, encrypted := encrypted ≠ 0 }, offset) := by
  obtain ⟨hhash, chunkOffset, compressedAt, compressedSize, originalAt, originalSize, h1, h2, h3⟩ := h
  have hinside := readVarInt_yields .corruptChunkTable data originalAt
  rw [h3] at hinside
  obtain ⟨hash, harr⟩ := readArr_of_le hhash
  refine ⟨hinside.2, { hash := hash, offset := chunkOffset, compressedSize := compressedSize
                       originalSize := originalSize }, ?_⟩
  rw [readChunk, require_of_true (decide_eq_true hhash), harr]
  simp only [bind, Except.bind, h1, h2, h3]

theorem readChunk_of_chunkAt {next : Nat} (h : ChunkAt data offset next) :
    ∃ chunk, readChunk data offset = .ok (chunk, next) := by
  obtain ⟨flagsAt, hhead, hflags, rfl⟩ := h
  obtain ⟨-, head, hread⟩ := hhead.readChunk_eq
  have hfirst : flagsAt < data.length := by omega
  have hsecond : flagsAt + 1 < data.length := by omega
  rw [readByte_of_lt hfirst] at hread
  simp only [bind, Except.bind, readByte_of_lt hsecond] at hread
  exact ⟨_, hread⟩

/-- One of the two flags is read behind the end. -/
theorem readChunk_of_cut (h : HeadAt data offset flagsAt) (hflags : data.length < flagsAt + 2) :
    readChunk data offset = .error .outOfBounds := by
  obtain ⟨hinside, head, hread⟩ := h.readChunk_eq
  rw [hread]
  by_cases hfirst : flagsAt < data.length
  · have hsecond : data[flagsAt + 1]? = none := List.getElem?_eq_none (by omega)
    rw [readByte_of_lt hfirst]
    simp only [bind, Except.bind, readByte, hsecond]
  · have hnone : data[flagsAt]? = none := List.getElem?_eq_none (by omega)
    simp only [readByte, hnone]
    rfl

theorem readChunk_of_no_head (h : ∀ flagsAt, ¬ HeadAt data offset flagsAt) :
    readChunk data offset = .error (.returned .corruptChunkTable) := by
  by_cases hhash : offset + 32 ≤ data.length
  · obtain ⟨hash, harr⟩ := readArr_of_le hhash
    rw [readChunk, require_of_true (decide_eq_true hhash), harr]
    simp only [bind, Except.bind]
    have hfirst := readVarInt_inside .corruptChunkTable hhash
    cases h1 : readVarInt .corruptChunkTable data (offset + 32) with
    | error e =>
        rw [h1] at hfirst
        rw [show e = .returned .corruptChunkTable from hfirst]
    | ok found =>
        rw [h1] at hfirst
        have hsecond := readVarInt_inside .corruptChunkTable hfirst.2
        simp only
        cases h2 : readVarInt .corruptChunkTable data found.2 with
        | error e =>
            rw [h2] at hsecond
            rw [show e = .returned .corruptChunkTable from hsecond]
        | ok other =>
            rw [h2] at hsecond
            have hthird := readVarInt_inside .corruptChunkTable hsecond.2
            simp only
            cases h3 : readVarInt .corruptChunkTable data other.2 with
            | error e =>
                rw [h3] at hthird
                rw [show e = .returned .corruptChunkTable from hthird]
            | ok last => exact absurd ⟨hhash, _, _, _, _, _, h1, h2, h3⟩ (h last.2)
  · rw [readChunk, require_of_false (decide_eq_false hhash)]
    rfl

theorem chunkAt_iff (offset next : Nat) :
    ChunkAt data offset next ↔ ∃ chunk, readChunk data offset = .ok (chunk, next) := by
  refine ⟨readChunk_of_chunkAt, ?_⟩
  rintro ⟨chunk, hread⟩
  by_cases hhead : ∃ flagsAt, HeadAt data offset flagsAt
  · obtain ⟨flagsAt, hhead⟩ := hhead
    by_cases hflags : flagsAt + 2 ≤ data.length
    · obtain ⟨other, hother⟩ := readChunk_of_chunkAt ⟨flagsAt, hhead, hflags, rfl⟩
      cases hread.symm.trans hother
      exact ⟨flagsAt, hhead, hflags, rfl⟩
    · cases (readChunk_of_cut hhead (Nat.not_le.mp hflags)).symm.trans hread
  · cases (readChunk_of_no_head (not_exists.mp hhead)).symm.trans hread

theorem readChunk_outOfBounds_iff (offset : Nat) :
    readChunk data offset = .error .outOfBounds
      ↔ ∃ flagsAt, HeadAt data offset flagsAt ∧ data.length < flagsAt + 2 := by
  constructor
  · intro hread
    by_cases hhead : ∃ flagsAt, HeadAt data offset flagsAt
    · obtain ⟨flagsAt, hhead⟩ := hhead
      refine ⟨flagsAt, hhead, Nat.not_le.mp ?_⟩
      intro hflags
      obtain ⟨chunk, hchunk⟩ := readChunk_of_chunkAt ⟨flagsAt, hhead, hflags, rfl⟩
      cases hread.symm.trans hchunk
    · cases (readChunk_of_no_head (not_exists.mp hhead)).symm.trans hread
  · rintro ⟨flagsAt, hhead, hflags⟩
    exact readChunk_of_cut hhead hflags

theorem readChunk_faults {e : Fault ErrorCode} (h : readChunk data offset = .error e) :
    e = .returned .corruptChunkTable ∨ e = .outOfBounds := by
  by_cases hhead : ∃ flagsAt, HeadAt data offset flagsAt
  · obtain ⟨flagsAt, hhead⟩ := hhead
    by_cases hflags : flagsAt + 2 ≤ data.length
    · obtain ⟨chunk, hchunk⟩ := readChunk_of_chunkAt ⟨flagsAt, hhead, hflags, rfl⟩
      cases h.symm.trans hchunk
    · cases h.symm.trans (readChunk_of_cut hhead (Nat.not_le.mp hflags))
      exact .inr rfl
  · cases h.symm.trans (readChunk_of_no_head (not_exists.mp hhead))
    exact .inl rfl

/-- The loop leaves the input just where a chunk that it comes to is cut off before its flags. -/
theorem readMany_outOfBounds_iff (count offset : Nat) :
    (∃ chunks, readMany (readChunk data) count offset = .error (chunks, .outOfBounds))
      ↔ ∃ k < count, ∃ pos flagsAt, Chain (ChunkAt data) k offset pos ∧ HeadAt data pos flagsAt
        ∧ data.length < flagsAt + 2 := by
  have hchunk : ChunkAt data = fun pos next => ∃ chunk, readChunk data pos = .ok (chunk, next) := by
    funext pos next
    exact propext (chunkAt_iff pos next)
  rw [readMany_error_iff, hchunk]
  constructor
  · rintro ⟨k, hk, pos, hchain, herror⟩
    obtain ⟨flagsAt, hhead, hflags⟩ := (readChunk_outOfBounds_iff pos).mp herror
    exact ⟨k, hk, pos, flagsAt, hchain, hhead, hflags⟩
  · rintro ⟨k, hk, pos, flagsAt, hchain, hhead, hflags⟩
    exact ⟨k, hk, pos, hchain, readChunk_of_cut hhead hflags⟩

theorem readMany_faults {count : Nat} {chunks : List ChunkDescriptor} {e : Fault ErrorCode}
    (h : readMany (readChunk data) count offset = .error (chunks, e)) :
    e = .returned .corruptChunkTable ∨ e = .outOfBounds := by
  obtain ⟨-, -, pos, -, herror⟩ := (readMany_error_iff count offset).mp ⟨chunks, h⟩
  exact readChunk_faults herror

/-- Behind the checks of the count only the loop can leave the input. -/
theorem deserialize_of_count {count : UInt64} {start : Nat}
    (hcount : readVarInt .corruptChunkTable data 0 = .ok (count, start))
    (hmax : count.toNat ≤ maxChunks) (hroom : count.toNat ≤ (data.length - start) / minChunkSize) :
    ((deserialize data).2 = none ∨ (deserialize data).2 = some (.returned .corruptChunkTable))
      ↔ ¬ ∃ chunks, readMany (readChunk data) count.toNat start = .error (chunks, .outOfBounds) := by
  rw [deserialize, hcount]
  simp only
  rw [if_neg (Nat.not_lt.mpr hmax), if_neg (Nat.not_lt.mpr hroom)]
  cases hloop : readMany (readChunk data) count.toNat start with
  | ok found => simp
  | error failure =>
      obtain ⟨chunks, e⟩ := failure
      rcases readMany_faults hloop with rfl | rfl
      · simp
      · simp

/-- **When decoding stays inside its input**: when every chunk that it comes to still has its two
flags. -/
theorem deserialize_inBounds_iff_flags (data : Bytes) :
    ((deserialize data).2 = none ∨ (deserialize data).2 = some (.returned .corruptChunkTable))
      ↔ ∀ count start, readVarInt .corruptChunkTable data 0 = .ok (count, start) →
          count.toNat ≤ maxChunks → count.toNat ≤ (data.length - start) / minChunkSize →
          ∀ k pos flagsAt, k < count.toNat → Chain (ChunkAt data) k start pos →
            HeadAt data pos flagsAt → flagsAt + 2 ≤ data.length := by
  have hinside := readVarInt_inside .corruptChunkTable (Nat.zero_le data.length)
  cases hcount : readVarInt .corruptChunkTable data 0 with
  | error e =>
      rw [hcount] at hinside
      obtain rfl : e = .returned .corruptChunkTable := hinside
      refine iff_of_true (.inr ?_) fun count start h => by cases h
      rw [deserialize, hcount]
  | ok found =>
      obtain ⟨count, start⟩ := found
      by_cases hchecked : count.toNat ≤ maxChunks
          ∧ count.toNat ≤ (data.length - start) / minChunkSize
      · rw [deserialize_of_count hcount hchecked.1 hchecked.2, readMany_outOfBounds_iff]
        constructor
        · rintro hnone _ _ ⟨⟩ - - k pos flagsAt hk hchain hhead
          by_contra hflags
          exact hnone ⟨k, hk, pos, flagsAt, hchain, hhead, Nat.not_le.mp hflags⟩
        · rintro hall ⟨k, hk, pos, flagsAt, hchain, hhead, hflags⟩
          have := hall count start rfl hchecked.1 hchecked.2 k pos flagsAt hk hchain hhead
          omega
      · refine iff_of_true (.inr ?_) ?_
        · rw [deserialize, hcount]
          simp only
          split
          · rfl
          · rw [if_pos (by omega)]
        · rintro _ _ ⟨⟩ hmax hroom
          exact absurd ⟨hmax, hroom⟩ hchecked

/-- One chunk of 37 bytes whose third varint takes three of them. -/
theorem not_inBounds_of_long_varint :
    let data : Bytes := 1 :: (List.replicate 34 0 ++ [0x80, 0x80, 0])
    data.length = 38 ∧ (deserialize data).2 = some .outOfBounds := by
  decide +kernel

end ChunkManager

end NebulaFS
