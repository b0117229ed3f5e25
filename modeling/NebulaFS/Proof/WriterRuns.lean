import NebulaFS.ArchiveWriter
import NebulaFS.Proof.SectionCodecs

/-!
# Runs of the writer

`records` says what a run has added: for every add that returned success its entry, the caller's data
and the bytes stored for it. The invariant `Inv` ties the writer's state to them. The file is a gap
for the header followed by everything written so far, the offset counter is the file position, and
every data entry's range of the file holds exactly its stored bytes. It is preserved by every call
that leaves the stream good, among them the adds that fail after their bytes were written.
-/

namespace NebulaFS

open Cursor SparseFile ArchiveHeader

/-! ### The file -/

/-- The stream is good and the file is a gap for the header and then `body`. -/
structure Written (file : OFStream) (body : Bytes) : Prop where
  good : file.good = true
  content : file.content = gap headerSize body
  above : ∀ write ∈ file.writes, headerSize ≤ write.pos
  pos : file.pos = headerSize + body.length
  fits : headerSize + body.length < 2 ^ 63

namespace OFStream

theorem write_of_good {file : OFStream} {data : Bytes} (h : (file.write data).good = true) :
    file.good = true ∧ file.pos + data.length ≤ file.device.capacity
      ∧ file.write data = { file with
          writes := file.writes ++ [⟨file.pos, data⟩], pos := file.pos + data.length } := by
  unfold write at h ⊢
  split at h
  · rename_i hcond
    exact ⟨hcond.1, hcond.2.1, if_pos hcond⟩
  · cases h

theorem seekp_of_good {file : OFStream} (h : file.good = true) (pos : Nat) :
    file.seekp pos = { file with pos := pos } := if_pos h

end OFStream

theorem Written.write {file : OFStream} {body data : Bytes} (h : Written file body)
    (hgood : (file.write data).good = true) : Written (file.write data) (body ++ data) := by
  obtain ⟨-, hroom, heq⟩ := OFStream.write_of_good hgood
  have hcapacity := file.device.capacity.isLt
  have hpos := h.pos
  rw [heq]
  refine ⟨h.good, ?_, ?_, ?_, ?_⟩
  · change replay (file.writes ++ [⟨file.pos, data⟩]) = _
    have hcontent : replay file.writes = gap headerSize body := h.content
    rw [replay_append_singleton, hcontent, h.pos, put_gap]
  · intro write hwrite
    rcases List.mem_append.mp hwrite with hold | hnew
    · exact h.above write hold
    · rw [List.mem_singleton.mp hnew]
      change headerSize ≤ file.pos
      omega
  · change file.pos + data.length = _
    rw [List.length_append]
    omega
  · rw [List.length_append]
    omega

namespace ArchiveWriter

/-! ### What a run adds -/

/-- An added entry, the data it was added with and the bytes stored for it. -/
structure Record where
  entry : ArchiveEntry
  data : Bytes
  stored : Bytes

def Record.isDirectory (record : Record) : Bool := record.entry.type = .directory

section

variable (platform : Platform)

def dataRecord (writer : ArchiveWriter) (around : Surroundings) (data : Bytes)
    (entry : ArchiveEntry) : Record :=
  { entry := writer.completeEntry platform around.evp data entry
    data := data
    stored := writer.processedData platform around.evp data }

def offered (writer : ArchiveWriter) : Call → Option Record
  | .addFile around source path =>
      source.map fun data =>
        writer.dataRecord platform around data (writer.fileEntry data path around.now)
  | .addSymlink around target path =>
      some (writer.dataRecord platform around target (writer.symlinkEntry target path around.now))
  | .addBlob around data path flags =>
      some (writer.dataRecord platform around data (writer.blobEntry data path flags around.now))
  | .addDirectory around path perms =>
      some { entry := writer.directoryEntry path perms around.now, data := [], stored := [] }
  | .setMetadata _ _ | .setEncryptionKey _ | .setCompression _ _ => none

def added (writer : ArchiveWriter) (call : Call) : List Record :=
  if (writer.step platform call).2 = none then (writer.offered platform call).toList else []

def records (writer : ArchiveWriter) : List Call → List Record
  | [] => []
  | call :: calls => writer.added platform call ++ records (writer.step platform call).1 calls

end

/-- Every call of a run meets a condition in the state it is made in. -/
def Along (platform : Platform) (condition : ArchiveWriter → Call → Prop)
    (writer : ArchiveWriter) : List Call → Prop
  | [] => True
  | call :: calls =>
      condition writer call ∧ Along platform condition (writer.step platform call).1 calls

instance decidableAlong (platform : Platform) (condition : ArchiveWriter → Call → Prop)
    [∀ writer call, Decidable (condition writer call)] :
    (writer : ArchiveWriter) → (calls : List Call) →
      Decidable (writer.Along platform condition calls)
  | _, [] => inferInstanceAs (Decidable True)
  | writer, call :: calls =>
      have := decidableAlong platform condition (writer.step platform call).1 calls
      inferInstanceAs (Decidable (_ ∧ _))

def Succeeds (platform : Platform) (writer : ArchiveWriter) (call : Call) : Prop :=
  (writer.step platform call).2 = none

instance decidableSucceeds (platform : Platform) (writer : ArchiveWriter) (call : Call) :
    Decidable (writer.Succeeds platform call) :=
  inferInstanceAs (Decidable (_ = _))

/-- Two conditions that agree wherever an invariant of the writer holds agree along its runs. -/
theorem along_congr {platform : Platform} {condition other : ArchiveWriter → Call → Prop}
    {invariant : ArchiveWriter → Prop}
    (hstep : ∀ writer call, invariant writer → invariant (writer.step platform call).1)
    (hagree : ∀ writer call, invariant writer → (condition writer call ↔ other writer call))
    {writer : ArchiveWriter} (hinv : invariant writer) (calls : List Call) :
    writer.Along platform condition calls ↔ writer.Along platform other calls := by
  induction calls generalizing writer with
  | nil => exact Iff.rfl
  | cons call calls ih => exact and_congr (hagree writer call hinv) (ih (hstep writer call hinv))

theorem along_of_invariant {platform : Platform} {condition : ArchiveWriter → Call → Prop}
    {invariant : ArchiveWriter → Prop} {calls : List Call}
    (hstep : ∀ writer, ∀ call ∈ calls, invariant writer → invariant (writer.step platform call).1)
    (hcondition : ∀ writer, ∀ call ∈ calls, invariant writer → condition writer call)
    {writer : ArchiveWriter} (hinv : invariant writer) :
    writer.Along platform condition calls := by
  induction calls generalizing writer with
  | nil => trivial
  | cons call calls ih =>
      refine ⟨hcondition writer call (by simp) hinv, ih ?_ ?_ (hstep writer call (by simp) hinv)⟩
      · exact fun other later hlater => hstep other later (by simp [hlater])
      · exact fun other later hlater => hcondition other later (by simp [hlater])

/-- What a condition gives for everything a call adds, it gives along a run for everything added. -/
theorem forall_records_of_along {platform : Platform} {condition : ArchiveWriter → Call → Prop}
    {invariant : ArchiveWriter → Prop} {P : Record → Prop}
    (hstep : ∀ writer call, invariant writer → invariant (writer.step platform call).1)
    (hadded : ∀ writer call, invariant writer → condition writer call →
      ∀ record ∈ writer.added platform call, P record)
    {writer : ArchiveWriter} (hinv : invariant writer) {calls : List Call}
    (h : writer.Along platform condition calls) :
    ∀ record ∈ writer.records platform calls, P record := by
  induction calls generalizing writer with
  | nil => simp [records]
  | cons call calls ih =>
      intro record hrecord
      rw [records, List.mem_append] at hrecord
      rcases hrecord with hnow | hlater
      · exact hadded writer call hinv h.1 record hnow
      · exact ih (hstep writer call hinv) h.2 record hlater

/-! ### Directories -/

/-- An entry without bytes and without a checksum. -/
structure Record.Bare (record : Record) : Prop where
  offset : record.entry.offset = 0
  storedSize : record.entry.storedSize = 0
  checksum : record.entry.checksum = zeroArr 32
  data : record.data = []
  stored : record.stored = []

theorem bare_of_directory_added {platform : Platform} {writer : ArchiveWriter} {record : Record}
    {call : Call} (hrecord : record ∈ writer.added platform call)
    (hdirectory : record.isDirectory = true) :
    record.Bare ∧ ∃ around path perms, call = .addDirectory around path perms := by
  unfold added at hrecord
  split at hrecord
  · have hnot : ∀ {around : Surroundings} {data : Bytes} {entry : ArchiveEntry},
        entry.type ≠ .directory →
        record ∈ (some (writer.dataRecord platform around data entry)).toList → False := by
      intro around data entry htype hmem
      rw [Option.toList_some, List.mem_singleton] at hmem
      rw [hmem] at hdirectory
      exact htype (of_decide_eq_true hdirectory)
    cases call with
    | addFile around source path =>
        cases source with
        | none => cases hrecord
        | some data => exact (hnot (by simp [fileEntry, newEntry]) hrecord).elim
    | addSymlink around target path =>
        exact (hnot (by simp [symlinkEntry, newEntry]) hrecord).elim
    | addBlob around data path flags => exact (hnot (by simp [blobEntry, newEntry]) hrecord).elim
    | addDirectory around path perms =>
        rw [offered, Option.toList_some, List.mem_singleton] at hrecord
        rw [hrecord]
        exact ⟨⟨rfl, rfl, rfl, rfl, rfl⟩, around, path, perms, rfl⟩
    | setMetadata _ _ | setEncryptionKey _ | setCompression _ _ => cases hrecord
  · cases hrecord

theorem bare_of_directory {platform : Platform} {writer : ArchiveWriter} {record : Record}
    {calls : List Call} (hrecord : record ∈ writer.records platform calls)
    (hdirectory : record.isDirectory = true) : record.Bare := by
  induction calls generalizing writer with
  | nil => cases hrecord
  | cons call calls ih =>
      rw [records, List.mem_append] at hrecord
      rcases hrecord with hnow | hlater
      · exact (bare_of_directory_added hnow hdirectory).1
      · exact ih hlater

/-! ### The invariant -/

/-- The record's range of the archive lies in the body and holds its stored bytes. -/
structure Placed (body : Bytes) (record : Record) : Prop where
  above : headerSize ≤ record.entry.offset.toNat
  size : record.entry.storedSize.toNat = record.stored.length
  inside : record.entry.offset.toNat + record.stored.length ≤ headerSize + body.length
  slice_eq : slice body (record.entry.offset.toNat - headerSize) record.stored.length
    = record.stored

theorem Placed.append {body : Bytes} {record : Record} (h : Placed body record) (data : Bytes) :
    Placed (body ++ data) record := by
  have habove := h.above
  have hinside := h.inside
  refine ⟨h.above, h.size, ?_, ?_⟩
  · rw [List.length_append]
    omega
  · rw [slice_append_left (by omega), h.slice_eq]

structure Inv (platform : Platform) (writer : ArchiveWriter) (body : Bytes)
    (records : List Record) : Prop where
  isOpen : writer.isOpen = true
  file : Written writer.file body
  offset : writer.currentOffset = headerSize + body.length
  count : writer.entryCount = records.length
  index : writer.indexManager.entries
    = records.map fun record => IndexManager.toIndexEntry record.entry
  ids : records.map (·.entry.id)
    = (List.range records.length).map fun i => UInt64.ofNat (i + 1)
  tree : writer.directoryTree = DirectoryTree.insertAll {} (records.map (·.entry))
  chunks : writer.chunkManager = {}
  header : writer.header.isValid = true
  placed : ∀ record ∈ records, record.isDirectory = false → Placed body record
  sums : ∀ record ∈ records, record.isDirectory = false →
    record.entry.checksum = ChecksumEngine.compute platform record.data
  ordered : records.Pairwise fun earlier later =>
    earlier.isDirectory = false → later.isDirectory = false →
      earlier.entry.offset.toNat + earlier.stored.length ≤ later.entry.offset.toNat

/-! ### One call -/

def Call.payload : Call → Option (Surroundings × Bytes)
  | .addFile around source _ => source.map (around, ·)
  | .addSymlink around target _ => some (around, target)
  | .addBlob around data _ _ => some (around, data)
  | .addDirectory _ _ _ | .setMetadata _ _ | .setEncryptionKey _ | .setCompression _ _ => none

/-- The calls without data: the add of a file that cannot be read or of a directory, and what is
configuration. -/
inductive Call.Dataless : Call → Prop
  | addFile (around : Surroundings) (path : Bytes) : Dataless (.addFile around none path)
  | addDirectory (around : Surroundings) (path : Bytes) (perms : Permissions) :
      Dataless (.addDirectory around path perms)
  | setMetadata (key value : Bytes) : Dataless (.setMetadata key value)
  | setEncryptionKey (key : Bytes) : Dataless (.setEncryptionKey key)
  | setCompression (algo : CompressionAlgorithm) (level : Int) : Dataless (.setCompression algo level)

theorem Call.dataless {call : Call} (h : call.payload = none) : call.Dataless := by
  cases call with
  | addFile around source path =>
      obtain rfl : source = none := Option.map_eq_none_iff.mp h
      exact .addFile around path
  | addSymlink _ _ _ | addBlob _ _ _ _ => cases h
  | addDirectory around path perms => exact .addDirectory around path perms
  | setMetadata key value => exact .setMetadata key value
  | setEncryptionKey key => exact .setEncryptionKey key
  | setCompression algo level => exact .setCompression algo level

def Call.path : Call → Bytes
  | .addFile _ _ path | .addSymlink _ _ path | .addBlob _ _ path _ | .addDirectory _ path _ => path
  | .setMetadata _ _ | .setEncryptionKey _ | .setCompression _ _ => []

section

variable {platform : Platform} {writer : ArchiveWriter} {body : Bytes} {records : List Record}

theorem step_of_payload (platform : Platform) {writer : ArchiveWriter}
    (hopen : writer.isOpen = true) {call : Call} {around : Surroundings} {data : Bytes}
    (hcall : call.payload = some (around, data)) :
    ∃ entry : ArchiveEntry, entry.id = UInt64.ofNat (writer.entryCount + 1)
      ∧ entry.type ≠ .directory ∧ entry.path = call.path
      ∧ writer.step platform call = writer.processAndWriteEntry platform around data entry
      ∧ writer.offered platform call = some (writer.dataRecord platform around data entry) := by
  have hnot : ¬ (¬ writer.isOpen = true) := not_not.mpr hopen
  cases call with
  | addFile around' source path =>
      cases source with
      | none => cases hcall
      | some data' =>
          obtain ⟨rfl, rfl⟩ : around' = around ∧ data' = data := by
            simpa [Call.payload] using hcall
          exact ⟨writer.fileEntry data' path around'.now, rfl, by simp [fileEntry, newEntry], rfl,
            by simp only [step, addFile, if_neg hnot], rfl⟩
  | addSymlink around' target path =>
      obtain ⟨rfl, rfl⟩ : around' = around ∧ target = data := by
        simpa [Call.payload] using hcall
      exact ⟨writer.symlinkEntry target path around'.now, rfl, by simp [symlinkEntry, newEntry], rfl,
        by simp only [step, addSymlink, if_neg hnot], rfl⟩
  | addBlob around' data' path flags =>
      obtain ⟨rfl, rfl⟩ : around' = around ∧ data' = data := by
        simpa [Call.payload] using hcall
      exact ⟨writer.blobEntry data' path flags around'.now, rfl, by simp [blobEntry, newEntry], rfl,
        by simp only [step, addBlob, if_neg hnot], rfl⟩
  | addDirectory _ _ _ | setMetadata _ _ | setEncryptionKey _ | setCompression _ _ => cases hcall

theorem insert_of_error {tree : DirectoryTree} {entry : ArchiveEntry} {e : Fault ErrorCode}
    (h : (tree.insert entry).2 = some e) : (tree.insert entry).1 = tree := by
  unfold DirectoryTree.insert at h ⊢
  split at h
  · cases h
  · simp only at h ⊢
    split at h
    · rename_i hroot hparts
      rw [if_neg hroot, if_pos hparts]
    · cases h

theorem ids_append (hids : records.map (·.entry.id)
      = (List.range records.length).map fun i => UInt64.ofNat (i + 1))
    {record : Record} (hid : record.entry.id = UInt64.ofNat (records.length + 1)) :
    (records ++ [record]).map (·.entry.id)
      = (List.range (records ++ [record]).length).map fun i => UInt64.ofNat (i + 1) := by
  rw [List.map_append, hids, List.length_append, List.length_singleton, List.range_succ,
    List.map_append, List.map_singleton, List.map_singleton, hid]

def afterWrite (platform : Platform) (writer : ArchiveWriter) (around : Surroundings)
    (data : Bytes) : ArchiveWriter :=
  { writer with
    file := writer.file.write (writer.processedData platform around.evp data)
    currentOffset := writer.currentOffset
      + (writer.processedData platform around.evp data).length }

def afterTake (platform : Platform) (writer : ArchiveWriter) (around : Surroundings)
    (data : Bytes) (entry : ArchiveEntry) : ArchiveWriter :=
  { writer.afterWrite platform around data with
    directoryTree := (writer.directoryTree.insert
      (writer.completeEntry platform around.evp data entry)).1
    indexManager := writer.indexManager.insert
      (writer.completeEntry platform around.evp data entry)
    entryCount := writer.entryCount + 1
    header := { writer.header with
      entryCount := UInt64.ofNat (writer.entryCount + 1)
      archiveSize := UInt64.ofNat (writer.currentOffset
        + (writer.processedData platform around.evp data).length + headerSize) }
    journal := writer.journal.map fun journal =>
      (journal.logCreate platform entry.id
        (writer.processedData platform around.evp data) around.logNow).1 }

/-- The three ways an add of data can end: the write fails, the path is refused after the write, or
the entry is taken. -/
theorem processAndWriteEntry_cases (platform : Platform) (writer : ArchiveWriter)
    (around : Surroundings) (data : Bytes) (entry : ArchiveEntry) :
    ((writer.afterWrite platform around data).file.good = false
      ∧ writer.processAndWriteEntry platform around data entry
        = ({ writer with file := (writer.afterWrite platform around data).file },
            some (.returned .ioError)))
    ∨ ((writer.afterWrite platform around data).file.good = true
      ∧ (∃ e, (writer.directoryTree.insert
          (writer.completeEntry platform around.evp data entry)).2 = some e
        ∧ writer.processAndWriteEntry platform around data entry
          = (writer.afterWrite platform around data, some e)))
    ∨ ((writer.afterWrite platform around data).file.good = true
      ∧ (writer.directoryTree.insert
          (writer.completeEntry platform around.evp data entry)).2 = none
      ∧ writer.processAndWriteEntry platform around data entry
        = (writer.afterTake platform around data entry, none)) := by
  have hfile : (writer.afterWrite platform around data).file
      = writer.file.write (writer.processedData platform around.evp data) := rfl
  rw [hfile]
  by_cases hwrite :
      (writer.file.write (writer.processedData platform around.evp data)).good = true
  · right
    rcases hinsert : writer.directoryTree.insert
      (writer.completeEntry platform around.evp data entry) with ⟨tree, _ | e⟩
    · refine .inr ⟨hwrite, rfl, ?_⟩
      simp only [ArchiveWriter.processAndWriteEntry, hwrite, not_true, if_false, hinsert,
        afterTake, afterWrite]
      rfl
    · have hsame : tree = writer.directoryTree := by
        rw [← insert_of_error (congrArg Prod.snd hinsert), hinsert]
      refine .inl ⟨hwrite, e, rfl, ?_⟩
      simp only [ArchiveWriter.processAndWriteEntry, hwrite, not_true, if_false, hinsert, hsame,
        afterWrite]
  · refine .inl ⟨by simpa using hwrite, ?_⟩
    simp only [ArchiveWriter.processAndWriteEntry]
    rw [if_pos hwrite]

theorem Inv.placed_dataRecord (h : Inv platform writer body records) {around : Surroundings}
    {data : Bytes} (entry : ArchiveEntry)
    (hwrite : (writer.afterWrite platform around data).file.good = true) :
    (writer.dataRecord platform around data entry).entry.offset.toNat = headerSize + body.length
      ∧ Placed (body ++ writer.processedData platform around.evp data)
        (writer.dataRecord platform around data entry) := by
  have hfits := (h.file.write hwrite).fits
  rw [List.length_append] at hfits
  have hoffset : (UInt64.ofNat writer.currentOffset).toNat = headerSize + body.length := by
    rw [h.offset, toNat_ofNat_of_lt (by omega)]
  refine ⟨hoffset, ?_, ?_, ?_, ?_⟩
  · simp [dataRecord, completeEntry, hoffset]
  · simp only [dataRecord, completeEntry]
    exact toNat_ofNat_of_lt (by omega)
  · simp only [dataRecord, completeEntry, hoffset, List.length_append]
    omega
  · simp only [dataRecord, completeEntry, hoffset]
    rw [slice_append_right (by omega)]
    rw [Nat.add_sub_cancel_left, Nat.sub_self, slice_all rfl]

/-- Bytes that are out for a path that is then refused stay in the body. -/
theorem Inv.afterWrite (h : Inv platform writer body records) {around : Surroundings}
    {data : Bytes} (hwrite : (writer.afterWrite platform around data).file.good = true) :
    Inv platform (writer.afterWrite platform around data)
      (body ++ writer.processedData platform around.evp data) records :=
  { h with
    file := h.file.write hwrite
    offset := by
      simp only [ArchiveWriter.afterWrite, h.offset, List.length_append]
      omega
    placed := fun record hrecord hdata => (h.placed record hrecord hdata).append _ }

theorem Inv.afterTake (h : Inv platform writer body records) {around : Surroundings}
    {data : Bytes} {entry : ArchiveEntry} (hid : entry.id = UInt64.ofNat (writer.entryCount + 1))
    (hwrite : (writer.afterWrite platform around data).file.good = true) :
    Inv platform (writer.afterTake platform around data entry)
      (body ++ writer.processedData platform around.evp data)
      (records ++ [writer.dataRecord platform around data entry]) := by
  have hafter := h.afterWrite hwrite
  obtain ⟨hoffset, hnewPlaced⟩ := h.placed_dataRecord entry hwrite
  refine
    { hafter with
      count := ?_
      index := ?_
      ids := ids_append h.ids (by rw [← h.count]; exact hid)
      tree := ?_
      placed := ?_
      sums := ?_
      ordered := ?_ }
  · simp [ArchiveWriter.afterTake, h.count]
  · simp [ArchiveWriter.afterTake, IndexManager.insert, h.index, dataRecord]
  · simp [ArchiveWriter.afterTake, h.tree, dataRecord, DirectoryTree.insertAll_append_singleton]
  · intro record hrecord hdata
    rcases List.mem_append.mp hrecord with hold | hnew
    · exact hafter.placed record hold hdata
    · rw [List.mem_singleton.mp hnew]
      exact hnewPlaced
  · intro record hrecord hdata
    rcases List.mem_append.mp hrecord with hold | hnew
    · exact h.sums record hold hdata
    · rw [List.mem_singleton.mp hnew]
      rfl
  · rw [List.pairwise_append]
    refine ⟨h.ordered, List.pairwise_singleton _ _, ?_⟩
    intro earlier hearlier later hlater hdata _
    rw [List.mem_singleton.mp hlater, hoffset]
    exact (h.placed earlier hearlier hdata).inside

theorem Inv.processAndWriteEntry (h : Inv platform writer body records) {around : Surroundings}
    {data : Bytes} {entry : ArchiveEntry} (hid : entry.id = UInt64.ofNat (writer.entryCount + 1))
    (hgood : (writer.processAndWriteEntry platform around data entry).1.file.good = true) :
    Inv platform (writer.processAndWriteEntry platform around data entry).1
      (body ++ writer.processedData platform around.evp data)
      (records ++ if (writer.processAndWriteEntry platform around data entry).2 = none
        then [writer.dataRecord platform around data entry] else []) := by
  rcases processAndWriteEntry_cases platform writer around data entry with
    ⟨hwrite, heq⟩ | ⟨hwrite, e, -, heq⟩ | ⟨hwrite, -, heq⟩
  · -- a stream that has failed is not good
    rw [heq] at hgood
    exact absurd hgood (by simp [hwrite])
  · rw [heq]
    simp only [reduceCtorEq, if_false, List.append_nil]
    exact h.afterWrite hwrite
  · rw [heq]
    simp only [if_true]
    exact h.afterTake hid hwrite

theorem addDirectory_cases (platform : Platform) {writer : ArchiveWriter}
    (hopen : writer.isOpen = true) (around : Surroundings) (path : Bytes) (perms : Permissions) :
    (∃ e, writer.addDirectory platform around path perms = (writer, some e))
    ∨ writer.addDirectory platform around path perms
      = ({ writer with
            directoryTree := (writer.directoryTree.insert
              (writer.directoryEntry path perms around.now)).1
            indexManager := writer.indexManager.insert
              (writer.directoryEntry path perms around.now)
            entryCount := writer.entryCount + 1
            journal := writer.journal.map fun journal =>
              (journal.logCreate platform (writer.directoryEntry path perms around.now).id []
                around.logNow).1 }, none) := by
  rcases hinsert : writer.directoryTree.insert
    (writer.directoryEntry path perms around.now) with ⟨tree, _ | e⟩
  · right
    simp only [ArchiveWriter.addDirectory, hopen, not_true, if_false, hinsert]
    rfl
  · have hsame : tree = writer.directoryTree := by
      rw [← insert_of_error (congrArg Prod.snd hinsert), hinsert]
    refine .inl ⟨e, ?_⟩
    rw [ArchiveWriter.addDirectory, if_neg (not_not.mpr hopen)]
    simp only [hinsert, hsame]

theorem Inv.addDirectory (h : Inv platform writer body records) (around : Surroundings)
    (path : Bytes) (perms : Permissions) :
    Inv platform (writer.addDirectory platform around path perms).1 body
      (records ++ writer.added platform (.addDirectory around path perms)) := by
  unfold added
  rw [ArchiveWriter.step]
  rcases addDirectory_cases platform h.isOpen around path perms with ⟨e, heq⟩ | heq
  · rw [heq]
    simpa using h
  · rw [heq]
    simp only [if_true, offered, Option.toList_some]
    refine
      { h with
        count := by simp [h.count]
        index := by simp [IndexManager.insert, h.index]
        ids := ids_append h.ids (by rw [← h.count]; rfl)
        tree := by simp [h.tree, DirectoryTree.insertAll_append_singleton]
        placed := ?_
        sums := ?_
        ordered := ?_ }
    · intro record hrecord hdata
      rcases List.mem_append.mp hrecord with hold | hnew
      · exact h.placed record hold hdata
      · rw [List.mem_singleton.mp hnew] at hdata
        cases hdata
    · intro record hrecord hdata
      rcases List.mem_append.mp hrecord with hold | hnew
      · exact h.sums record hold hdata
      · rw [List.mem_singleton.mp hnew] at hdata
        cases hdata
    · rw [List.pairwise_append]
      refine ⟨h.ordered, List.pairwise_singleton _ _, ?_⟩
      intro earlier _ later hlater _ hdata
      rw [List.mem_singleton.mp hlater] at hdata
      cases hdata

theorem Inv.step (h : Inv platform writer body records) (call : Call)
    (hgood : (writer.step platform call).1.file.good = true) :
    ∃ later, Inv platform (writer.step platform call).1 (body ++ later)
      (records ++ writer.added platform call) := by
  cases hpayload : call.payload with
  | some payload =>
      obtain ⟨entry, hid, -, -, hstep, hoffered⟩ := step_of_payload platform h.isOpen hpayload
      unfold added
      rw [hstep] at hgood ⊢
      rw [hoffered]
      exact ⟨_, h.processAndWriteEntry hid hgood⟩
  | none =>
      -- nothing is written: the body stays as it is
      refine ⟨[], ?_⟩
      rw [List.append_nil]
      cases Call.dataless hpayload with
      | addFile around path => simpa [added, ArchiveWriter.step, addFile, h.isOpen] using h
      | addDirectory around path perms => exact h.addDirectory around path perms
      | setMetadata key value => simpa [added, offered] using { h with }
      | setEncryptionKey key => simpa [added, offered] using { h with }
      | setCompression algo level => simpa [added, offered] using { h with }

/-! ### Whole runs -/

theorem run_cons (platform : Platform) (writer : ArchiveWriter) (call : Call) (calls : List Call) :
    writer.run platform (call :: calls) = (writer.step platform call).1.run platform calls := by
  simp [run]

theorem processAndWriteEntry_file (platform : Platform) (writer : ArchiveWriter)
    (around : Surroundings) (data : Bytes) (entry : ArchiveEntry) :
    (writer.processAndWriteEntry platform around data entry).1.file
      = writer.file.write (writer.processedData platform around.evp data) := by
  rcases processAndWriteEntry_cases platform writer around data entry with
    ⟨-, heq⟩ | ⟨-, e, -, heq⟩ | ⟨-, -, heq⟩
  · rw [heq]
    rfl
  · rw [heq]
    rfl
  · rw [heq]
    rfl

theorem step_file (platform : Platform) {writer : ArchiveWriter} (hopen : writer.isOpen = true)
    (call : Call) :
    (writer.step platform call).1.file
      = match call.payload with
        | some (around, data) => writer.file.write (writer.processedData platform around.evp data)
        | none => writer.file := by
  cases hpayload : call.payload with
  | some payload =>
      obtain ⟨entry, -, -, -, hstep, -⟩ := step_of_payload platform hopen hpayload
      rw [hstep]
      exact processAndWriteEntry_file platform writer payload.1 payload.2 entry
  | none =>
      cases Call.dataless hpayload with
      | addFile around path => simp [step, addFile, hopen]
      | addDirectory around path perms =>
          rw [step]
          rcases addDirectory_cases platform hopen around path perms with ⟨e, heq⟩ | heq
          · rw [heq]
          · rw [heq]
      | setMetadata _ _ | setEncryptionKey _ | setCompression _ _ => rfl

def Coherent (writer : ArchiveWriter) : Prop :=
  writer.compression.config
    = { algorithm := writer.config.compression, compressionLevel := writer.config.compressionLevel }

/-- What no call changes: whether the writer is open, the flags of its header, its cipher, whether it
keeps a journal, and that its engines are those of its configuration. -/
structure SameSetup (writer after : ArchiveWriter) : Prop where
  isOpen : after.isOpen = writer.isOpen
  flags : after.header.flags = writer.header.flags
  encryption : after.config.encryption = writer.config.encryption
  journal : after.journal.isSome = writer.journal.isSome
  engine : after.encryption.map (fun engine => (engine.ctx, engine.config.algorithm))
    = writer.encryption.map fun engine => (engine.ctx, engine.config.algorithm)
  coherent : writer.Coherent → after.Coherent

theorem SameSetup.refl (writer : ArchiveWriter) : SameSetup writer writer :=
  ⟨rfl, rfl, rfl, rfl, rfl, id⟩

theorem SameSetup.trans {first second third : ArchiveWriter} (h : SameSetup first second)
    (h' : SameSetup second third) : SameSetup first third :=
  ⟨h'.isOpen.trans h.isOpen, h'.flags.trans h.flags, h'.encryption.trans h.encryption,
    h'.journal.trans h.journal, h'.engine.trans h.engine, h'.coherent ∘ h.coherent⟩

theorem sameSetup_processAndWriteEntry (platform : Platform) (writer : ArchiveWriter)
    (around : Surroundings) (data : Bytes) (entry : ArchiveEntry) :
    SameSetup writer (writer.processAndWriteEntry platform around data entry).1 := by
  rcases processAndWriteEntry_cases platform writer around data entry with
    ⟨-, heq⟩ | ⟨-, e, -, heq⟩ | ⟨-, -, heq⟩
  · rw [heq]
    exact ⟨rfl, rfl, rfl, rfl, rfl, id⟩
  · rw [heq]
    exact ⟨rfl, rfl, rfl, rfl, rfl, id⟩
  · rw [heq]
    exact ⟨rfl, rfl, rfl, Option.isSome_map, rfl, id⟩

theorem sameSetup_setEncryptionKey (writer : ArchiveWriter) (key : Bytes) :
    SameSetup writer (writer.setEncryptionKey key) := by
  refine ⟨rfl, rfl, rfl, rfl, ?_, id⟩
  cases hengine : writer.encryption with
  | none => simp [setEncryptionKey, hengine]
  | some engine => simp [setEncryptionKey, hengine, EncryptionEngine.setKey]

theorem sameSetup_step (platform : Platform) (writer : ArchiveWriter) (call : Call) :
    SameSetup writer (writer.step platform call).1 := by
  cases hopen : writer.isOpen with
  | false =>
      -- the adds are refused and the rest is configuration
      cases call with
      | addFile around source path => simpa [step, addFile, hopen] using SameSetup.refl writer
      | addSymlink around target path =>
          simpa [step, addSymlink, hopen] using SameSetup.refl writer
      | addBlob around data path flags => simpa [step, addBlob, hopen] using SameSetup.refl writer
      | addDirectory around path perms =>
          simpa [step, ArchiveWriter.addDirectory, hopen] using SameSetup.refl writer
      | setMetadata key value => exact ⟨rfl, rfl, rfl, rfl, rfl, id⟩
      | setEncryptionKey key => exact sameSetup_setEncryptionKey writer key
      | setCompression algo level => exact ⟨rfl, rfl, rfl, rfl, rfl, fun _ => rfl⟩
  | true =>
      cases hpayload : call.payload with
      | some payload =>
          obtain ⟨entry, -, -, -, hstep, -⟩ := step_of_payload platform hopen hpayload
          rw [hstep]
          exact sameSetup_processAndWriteEntry platform writer payload.1 payload.2 entry
      | none =>
          cases Call.dataless hpayload with
          | addFile around path => simpa [step, addFile, hopen] using SameSetup.refl writer
          | addDirectory around path perms =>
              rw [step]
              rcases addDirectory_cases platform hopen around path perms with ⟨e, heq⟩ | heq
              · rw [heq]
                exact SameSetup.refl writer
              · rw [heq]
                exact ⟨rfl, rfl, rfl, Option.isSome_map, rfl, id⟩
          | setMetadata key value => exact ⟨rfl, rfl, rfl, rfl, rfl, id⟩
          | setEncryptionKey key => exact sameSetup_setEncryptionKey writer key
          | setCompression algo level => exact ⟨rfl, rfl, rfl, rfl, rfl, fun _ => rfl⟩

theorem sameSetup_run (platform : Platform) (writer : ArchiveWriter) (calls : List Call) :
    SameSetup writer (writer.run platform calls) := by
  induction calls generalizing writer with
  | nil => exact SameSetup.refl writer
  | cons call calls ih =>
      rw [run_cons]
      exact (sameSetup_step platform writer call).trans (ih _)

theorem good_of_step_good (hopen : writer.isOpen = true) {call : Call}
    (h : (writer.step platform call).1.file.good = true) : writer.file.good = true := by
  rw [step_file platform hopen] at h
  split at h
  · exact (OFStream.write_of_good h).1
  · exact h

theorem good_of_run_good (hopen : writer.isOpen = true) {calls : List Call}
    (h : (writer.run platform calls).file.good = true) : writer.file.good = true := by
  induction calls generalizing writer with
  | nil => exact h
  | cons call calls ih =>
      rw [run_cons] at h
      have hafter := ih ((sameSetup_step platform writer call).isOpen.trans hopen) h
      exact good_of_step_good hopen hafter

/-- **A run keeps the invariant** as long as its stream is good at the end. -/
theorem Inv.run (h : Inv platform writer body records) (calls : List Call)
    (hgood : (writer.run platform calls).file.good = true) :
    ∃ later, Inv platform (writer.run platform calls) (body ++ later)
      (records ++ writer.records platform calls) := by
  induction calls generalizing writer body records with
  | nil => exact ⟨[], by simpa [ArchiveWriter.run, ArchiveWriter.records] using h⟩
  | cons call calls ih =>
      rw [run_cons] at hgood ⊢
      have hopen := (sameSetup_step platform writer call).isOpen.trans h.isOpen
      obtain ⟨first, hstep⟩ := h.step call (good_of_run_good hopen hgood)
      obtain ⟨later, hrun⟩ := ih hstep hgood
      refine ⟨first ++ later, ?_⟩
      rw [ArchiveWriter.records, ← List.append_assoc, ← List.append_assoc]
      exact hrun

/-! ### Opening -/

structure Fresh (writer : ArchiveWriter) : Prop where
  isOpen : writer.isOpen = false
  count : writer.entryCount = 0
  index : writer.indexManager.entries = []
  tree : writer.directoryTree = {}
  chunks : writer.chunkManager = {}
  header : writer.header.isValid = true
  noted : writer.header.entryCount = 0

theorem fresh_new (platform : Platform) (config : WriterConfig) (device : Device)
    (ctxNew : Bool) : Fresh (new platform config device ctxNew) := by
  have hvalid : ({} : ArchiveHeader).isValid = true := by decide
  exact ⟨rfl, rfl, rfl, rfl, rfl, hvalid, rfl⟩

theorem Fresh.step (h : Fresh writer) (platform : Platform) (call : Call) :
    Fresh (writer.step platform call).1 := by
  cases call with
  | addFile around source path => simpa [ArchiveWriter.step, addFile, h.isOpen] using h
  | addSymlink around target path => simpa [ArchiveWriter.step, addSymlink, h.isOpen] using h
  | addBlob around data path flags => simpa [ArchiveWriter.step, addBlob, h.isOpen] using h
  | addDirectory around path perms =>
      simpa [ArchiveWriter.step, ArchiveWriter.addDirectory, h.isOpen] using h
  | setMetadata key value => exact { h with }
  | setEncryptionKey key => exact { h with }
  | setCompression algo level => exact { h with }

theorem Fresh.run (h : Fresh writer) (platform : Platform) (calls : List Call) :
    Fresh (writer.run platform calls) := by
  induction calls generalizing writer with
  | nil => exact h
  | cons call calls ih =>
      rw [run_cons]
      exact ih (h.step platform call)

theorem Fresh.openArchive (h : Fresh writer) (platform : Platform) {now : Timestamp}
    (hok : (writer.openArchive now).2 = none) :
    Inv platform (writer.openArchive now).1 [] [] := by
  unfold ArchiveWriter.openArchive at hok ⊢
  rw [if_neg (by simp [h.isOpen])] at hok ⊢
  split at hok
  · cases hok
  · rename_i hopenable
    rw [if_neg hopenable]
    exact
      { isOpen := rfl
        file := ⟨rfl, rfl, by simp [OFStream.seekp], rfl, by decide⟩
        offset := rfl
        count := h.count
        index := h.index
        ids := rfl
        tree := h.tree
        chunks := h.chunks
        header := h.header
        placed := by simp
        sums := by simp
        ordered := List.Pairwise.nil }

structure JustOpened (writer after : ArchiveWriter) : Prop where
  isOpen : after.isOpen = true
  config : after.config = writer.config
  compression : after.compression = writer.compression
  encryption : after.encryption = writer.encryption
  flags : after.header.flags = openFlags writer.config
  noted : after.header.entryCount = writer.header.entryCount
  journal : after.journal.isSome = writer.journal.isSome

theorem Fresh.justOpened (h : Fresh writer) {now : Timestamp}
    (hok : (writer.openArchive now).2 = none) :
    JustOpened writer (writer.openArchive now).1 := by
  unfold ArchiveWriter.openArchive at hok ⊢
  rw [if_neg (by simp [h.isOpen])] at hok ⊢
  split at hok
  · cases hok
  · rename_i hopenable
    rw [if_neg hopenable]
    exact ⟨rfl, rfl, rfl, rfl, rfl, rfl, Option.isSome_map⟩

end

end ArchiveWriter

namespace Session

open ArchiveWriter

variable {platform : Platform} {session : Session}

def records (platform : Platform) (session : Session) : List Record :=
  (session.opened platform).1.records platform session.calls

theorem configured_fresh (platform : Platform) (session : Session) :
    Fresh (session.configured platform) :=
  (fresh_new platform session.config session.device session.ctxNew).run platform session.before

theorem sameSetup_configured (platform : Platform) (session : Session) :
    SameSetup (new platform session.config session.device session.ctxNew)
      (session.configured platform) :=
  sameSetup_run platform _ session.before

theorem justOpened (h : (session.opened platform).2 = none) :
    JustOpened (session.configured platform) (session.opened platform).1 :=
  (configured_fresh platform session).justOpened h

theorem opened_of_closed (h : (session.closed platform).2 = none) :
    (session.opened platform).2 = none := by
  by_contra hfailed
  have hfresh := configured_fresh platform session
  -- a failed `open` leaves the writer as it was, and then `close` refuses
  have hsame : (session.opened platform).1 = session.configured platform := by
    unfold opened openArchive at hfailed ⊢
    rw [if_neg (by simp [hfresh.isOpen])] at hfailed ⊢
    split at hfailed
    · rename_i hopenable
      rw [if_pos hopenable]
    · exact absurd rfl hfailed
  have hclosed : (session.filled platform).isOpen = false := by
    rw [filled, hsame]
    exact (hfresh.run platform session.calls).isOpen
  rw [closed, close, if_pos (by simp [hclosed])] at h
  cases h

/-- **The state before `close`.** A session whose stream is still good holds what it recorded. -/
theorem filled_inv (hopened : (session.opened platform).2 = none)
    (hgood : (session.filled platform).file.good = true) :
    ∃ body, Inv platform (session.filled platform) body (session.records platform) := by
  have hopen := (configured_fresh platform session).openArchive platform hopened
  obtain ⟨body, hrun⟩ := hopen.run session.calls hgood
  rw [List.nil_append, List.nil_append] at hrun
  exact ⟨body, hrun⟩

end Session

end NebulaFS
