import NebulaFS.Proof.ExtractionReports

/-!
# Where the reader leaves the archive

The index is taken as it is decoded, so an entry can have any offset and any size. `readEntryData` adds
them in a word, and refuses an entry whose sum in a word is beyond the end of the file. What is left are
the entries that begin so high that the sum comes round (`Strays`): they, and no others, are read from
outside (`reads_inside_iff`).
-/

namespace NebulaFS

open Cursor

namespace ArchiveReader

variable {platform : Platform} {reader receiver opened : ArchiveReader} {bytes : Bytes}
  {entry : IndexEntry}

/-- The entry ends beyond the file, and its sum in a word does not. -/
def Strays (bytes : Bytes) (entry : IndexEntry) : Prop :=
  bytes.length < entry.offset.toNat + entry.size.toNat
    ∧ (entry.offset + entry.size).toNat ≤ bytes.length

instance decidableStrays (bytes : Bytes) (entry : IndexEntry) : Decidable (Strays bytes entry) :=
  inferInstanceAs (Decidable (_ ∧ _))

/-- What is asked of reading one entry: nothing is read outside, and what is not refused as out of range
lies in the file. -/
structure ReadsInside (bytes : Bytes) (entry : IndexEntry) (result : Result Bytes) : Prop where
  inside : result ≠ .error .outOfBounds
  range : result = .error (.returned (toParseError .outOfRange .compressedBlocks entry.offset))
    ∨ entry.offset.toNat + entry.size.toNat ≤ bytes.length

/-! ### One entry -/

/-- An entry in the file is never read outside, whatever becomes of its content. -/
theorem readEntryData_returns (platform : Platform) (record : ArchiveEntry)
    (hfits : record.offset.toNat + record.storedSize.toNat ≤ reader.archiveData.length) :
    (∃ data, reader.readEntryData platform record = .ok data)
      ∨ ∃ e, reader.readEntryData platform record = .error (.returned e) := by
  have hsum : ¬ reader.archiveData.length < (record.offset + record.storedSize).toNat := by
    rw [UInt64.toNat_add]
    have := Nat.mod_le (record.offset.toNat + record.storedSize.toNat) (2 ^ 64)
    omega
  rw [readEntryData, if_neg hsum, if_neg (Nat.not_lt.mpr hfits)]
  simp only
  split
  · rename_i e hopened
    split at hopened
    · split at hopened
      · cases hopened
      · cases hopened
        exact .inr ⟨_, rfl⟩
    · cases hopened
  · split
    · exact .inr ⟨_, rfl⟩
    · exact .inl ⟨_, rfl⟩

theorem readEntryData_of_strays (platform : Platform) {record : ArchiveEntry}
    (hoffset : record.offset = entry.offset) (hsize : record.storedSize = entry.size)
    (h : Strays reader.archiveData entry) :
    reader.readEntryData platform record = .error .outOfBounds := by
  rw [readEntryData, hoffset, hsize, if_neg (Nat.not_lt.mpr h.2), if_pos h.1]

/-- **Reading an entry.** -/
theorem readEntryData_inside_iff (platform : Platform) (record : ArchiveEntry)
    (hoffset : record.offset = entry.offset) (hsize : record.storedSize = entry.size) :
    ReadsInside reader.archiveData entry (reader.readEntryData platform record)
      ↔ ¬ Strays reader.archiveData entry := by
  constructor
  · intro h hstrays
    exact h.inside (readEntryData_of_strays platform hoffset hsize hstrays)
  · intro h
    by_cases hfits : entry.offset.toNat + entry.size.toNat ≤ reader.archiveData.length
    · have hrecord : record.offset.toNat + record.storedSize.toNat ≤ reader.archiveData.length := by
        rw [hoffset, hsize]
        exact hfits
      refine ⟨?_, .inr hfits⟩
      rcases readEntryData_returns platform record hrecord with ⟨data, hdata⟩ | ⟨e, herror⟩
      · rw [hdata]
        exact fun heq => by cases heq
      · rw [herror]
        exact fun heq => by cases heq
    · have hsum : reader.archiveData.length < (entry.offset + entry.size).toNat :=
        Nat.not_le.mp fun hle => h ⟨Nat.not_le.mp hfits, hle⟩
      have hrefused : reader.readEntryData platform record
          = .error (.returned (toParseError .outOfRange .compressedBlocks entry.offset)) := by
        rw [readEntryData, hoffset, hsize, if_pos hsum]
      refine ⟨?_, .inl hrefused⟩
      rw [hrefused]
      exact fun heq => by cases heq

/-- The entry of the node that a path leads to. -/
def entryOf (reader : ArchiveReader) (path : Bytes) : Option IndexEntry :=
  (reader.directoryTree.find path).bind fun node => reader.indexManager.findById node.id

theorem extractEntryByPath_inside_iff (platform : Platform) (hopen : reader.isOpen = true) {path : Bytes}
    (h : reader.entryOf path = some entry) :
    ReadsInside reader.archiveData entry (reader.extractEntryByPath platform path)
      ↔ ¬ Strays reader.archiveData entry := by
  obtain ⟨node, hnode, hentry⟩ := Option.bind_eq_some_iff.mp h
  rw [extractEntryByPath, findEntryByPath, if_neg (not_not.mpr hopen), hnode]
  simp only [hentry]
  exact readEntryData_inside_iff platform _ rfl rfl

theorem extractEntryById_inside_iff (platform : Platform) (hopen : reader.isOpen = true) {id : EntryID}
    (h : reader.indexManager.findById id = some entry) :
    ReadsInside reader.archiveData entry (reader.extractEntryById platform id)
      ↔ ¬ Strays reader.archiveData entry := by
  rw [extractEntryById, findEntryById, if_neg (not_not.mpr hopen), h]
  exact readEntryData_inside_iff platform _ rfl rfl

/-! ### All entries -/

/-- The extraction of all entries goes outside at the first one that strays. -/
theorem extractLoop_inside_iff (platform : Platform) (outputDir : String) (outputs : Nat → Output)
    (entries : List IndexEntry) (i : Nat) (written : List Written) :
    (reader.extractLoop platform outputDir outputs (entries.map ofIndexEntry) i written).1
        ≠ some .outOfBounds
      ↔ ∀ entry ∈ entries, ¬ Strays reader.archiveData entry := by
  induction entries generalizing i written with
  | nil => exact iff_of_true (by rw [List.map_nil, extractLoop]; exact fun h => by cases h) (by simp)
  | cons entry entries ih =>
      rw [List.map_cons, extractLoop, List.forall_mem_cons]
      by_cases hstrays : Strays reader.archiveData entry
      · rw [readEntryData_of_strays platform rfl rfl hstrays]
        exact iff_of_false (fun h => h rfl) fun h => h.1 hstrays
      · rw [and_iff_right hstrays]
        have hread := (readEntryData_inside_iff platform (ofIndexEntry entry) rfl rfl).mpr hstrays
        cases hresult : reader.readEntryData platform (ofIndexEntry entry) with
        | ok data => exact ih _ _
        | error fault =>
            rw [hresult] at hread
            cases fault with
            | returned e => exact ih _ _
            | outOfBounds => exact absurd rfl hread.inside
            | outOfFuel =>
                rcases hread.range with hrange | hfits
                · cases hrange
                · rcases readEntryData_returns platform (ofIndexEntry entry) hfits with
                    ⟨data, hdata⟩ | ⟨e, herror⟩
                  · cases hresult.symm.trans hdata
                  · cases hresult.symm.trans herror

theorem archiveData_of_open (hopen : receiver.openArchive platform (some bytes) = (opened, none)) :
    opened.archiveData = bytes ∧ opened.isOpen = true := by
  unfold openArchive parseArchive at hopen
  split at hopen
  · cases hopen
  · simp only at hopen
    cases hparse : Parser.parse platform false bytes with
    | error fault =>
        rw [hparse] at hopen
        cases fault <;> cases hopen
    | ok result =>
        rw [hparse] at hopen
        cases hopen
        exact ⟨rfl, rfl⟩

/-- What is asked of an open archive of these bytes. -/
structure StaysInside (platform : Platform) (bytes : Bytes) (reader : ArchiveReader) : Prop where
  byPath : ∀ path entry, reader.entryOf path = some entry →
    ReadsInside bytes entry (reader.extractEntryByPath platform path)
  byId : ∀ id entry, reader.indexManager.findById id = some entry →
    ReadsInside bytes entry (reader.extractEntryById platform id)
  all : ∀ outputDir creates outputs status written,
    reader.extractAll platform outputDir creates outputs = some (status, written) →
    status ≠ some .outOfBounds

theorem mem_entries_of_findById {manager : IndexManager} {id : EntryID}
    (h : manager.findById id = some entry) : entry ∈ manager.entries := by
  rw [IndexManager.findById] at h
  split at h
  · cases h
  · exact List.mem_of_getElem? h

/-- **When reading stays inside the archive**: when no entry of the index begins so high that its end
comes round the word. -/
theorem reads_inside_iff (hopen : receiver.openArchive platform (some bytes) = (opened, none)) :
    StaysInside platform bytes opened ↔ ∀ entry ∈ opened.indexManager.entries, ¬ Strays bytes entry := by
  obtain ⟨rfl, hisOpen⟩ := archiveData_of_open hopen
  constructor
  · intro h
    have hloop := h.all "" true (fun _ => { opens := true, room := 0 })
    rw [extractAll_eq platform _ _ hisOpen] at hloop
    exact (extractLoop_inside_iff platform _ _ _ _ _).mp (hloop _ _ rfl)
  · intro h
    refine ⟨?_, ?_, ?_⟩
    · intro path entry hentry
      obtain ⟨node, -, hfound⟩ := Option.bind_eq_some_iff.mp hentry
      exact (extractEntryByPath_inside_iff platform hisOpen hentry).mpr
        (h entry (mem_entries_of_findById hfound))
    · intro id entry hentry
      exact (extractEntryById_inside_iff platform hisOpen hentry).mpr
        (h entry (mem_entries_of_findById hentry))
    · intro outputDir creates outputs status written hresult
      cases creates with
      | false => simp [extractAll, listEntries, hisOpen] at hresult
      | true =>
          rw [extractAll_eq platform _ _ hisOpen] at hresult
          obtain rfl := congrArg Prod.fst (Option.some.inj hresult)
          exact (extractLoop_inside_iff platform _ _ _ _ _).mpr h

theorem not_staysInside_of_strays
    (hopen : receiver.openArchive platform (some bytes) = (opened, none)) {id : EntryID}
    (hentry : opened.indexManager.findById id = some entry) (hstrays : Strays bytes entry) :
    ¬ StaysInside platform bytes opened := by
  obtain ⟨rfl, hisOpen⟩ := archiveData_of_open hopen
  intro h
  exact (extractEntryById_inside_iff platform hisOpen hentry).mp (h.byId id entry hentry) hstrays

/-- An archive of a header and an index of one entry. -/
def archiveOfEntry (entry : IndexEntry) : Bytes :=
  let index := IndexManager.serialize { entries := [entry] }
  ArchiveHeader.serialize { indexOffset := 158, indexSize := UInt64.ofNat index.length } ++ index

theorem openArchive_eq (h : (receiver.openArchive platform (some bytes)).2 = none) :
    receiver.openArchive platform (some bytes)
      = ((receiver.openArchive platform (some bytes)).1, none) :=
  Prod.ext rfl h

theorem reads_inside_iff_of_entry :
    let bytes := archiveOfEntry { entryId := 1, offset := 158, size := 2, checksum := zeroArr 32 }
    ∃ opened, openArchive Platform.reference {} (some bytes) = (opened, none)
      ∧ (StaysInside Platform.reference bytes opened
        ↔ ∀ entry ∈ opened.indexManager.entries, ¬ Strays bytes entry) := by
  intro bytes
  have hopen : (openArchive Platform.reference {} (some bytes)).2 = none := by decide +kernel
  exact ⟨_, openArchive_eq hopen, reads_inside_iff (openArchive_eq hopen)⟩

/-- An entry of one byte at the last offset there is. -/
def strayEntry : IndexEntry :=
  { entryId := 1, offset := 0xFFFFFFFFFFFFFFFF, size := 1, checksum := zeroArr 32 }

theorem not_staysInside_of_wrap :
    ∃ opened, openArchive Platform.reference {} (some (archiveOfEntry strayEntry)) = (opened, none)
      ∧ ¬ StaysInside Platform.reference (archiveOfEntry strayEntry) opened := by
  have hopen : (openArchive Platform.reference {} (some (archiveOfEntry strayEntry))).2 = none := by
    decide +kernel
  have hentry : (openArchive Platform.reference {}
      (some (archiveOfEntry strayEntry))).1.indexManager.findById 1 = some strayEntry := by
    decide +kernel
  have hstrays : Strays (archiveOfEntry strayEntry) strayEntry := by decide +kernel
  exact ⟨_, openArchive_eq hopen, not_staysInside_of_strays (openArchive_eq hopen) hentry hstrays⟩

end ArchiveReader

end NebulaFS
