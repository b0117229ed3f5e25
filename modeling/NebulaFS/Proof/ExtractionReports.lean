import NebulaFS.Proof.Verification

/-!
# What `extractAll` reports

An open archive that has its directory is extracted with success, whatever became of its entries. So
success means that all of them were extracted only where nothing could fail: every entry can be read,
and every file opens and takes its data. The files then last unless entries of one id have different
data (`reports_iff`).
-/

namespace NebulaFS

namespace ArchiveReader

/-- The data was completely written to the file of the entry. -/
def Wrote (outputDir : String) (written : List Written) (i : Nat) (entry : IndexEntry)
    (data : Bytes) : Prop :=
  { index := i, path := outputPath outputDir entry.entryId, content := data } ∈ written

/-- It was, and the file still has it in the end. -/
def Lasts (outputDir : String) (written : List Written) (i : Nat) (entry : IndexEntry)
    (data : Bytes) : Prop :=
  Wrote outputDir written i entry data
    ∧ fileAt written (outputPath outputDir entry.entryId) = some data

section

variable (platform : Platform) (reader : ArchiveReader) (outputDir : String) (creates : Bool)
  (outputs : Nat → Output) (done : List Written → Nat → IndexEntry → Bytes → Prop)

/-- Where `extractAll` returns no error, every entry of the index was read and this was done with its
data. A read outside the archive has no result to trust, and is no error that is returned. -/
def Reports : Prop :=
  ∀ status written, reader.extractAll platform outputDir creates outputs = some (status, written) →
    (∀ code, status ≠ some (.returned code)) →
    ∀ i entry, reader.indexManager.entries[i]? = some entry →
      ∃ data, reader.readEntryData platform (ofIndexEntry entry) = .ok data
        ∧ done written i entry data

/-- Nothing that can fail does. -/
structure Flawless : Prop where
  reads : ∀ entry ∈ reader.indexManager.entries,
    ∃ data, reader.readEntryData platform (ofIndexEntry entry) = .ok data
  outputs : ∀ i entry data, reader.indexManager.entries[i]? = some entry →
    reader.readEntryData platform (ofIndexEntry entry) = .ok data →
    (outputs i).opens = true ∧ data.length ≤ (outputs i).room

/-- Entries of one id, which have one output file, have the same data. -/
def Consistent : Prop :=
  ∀ entry ∈ reader.indexManager.entries, ∀ other ∈ reader.indexManager.entries,
    entry.entryId = other.entryId →
    reader.readEntryData platform (ofIndexEntry entry)
      = reader.readEntryData platform (ofIndexEntry other)

end

variable {platform : Platform} {reader : ArchiveReader} {outputDir : String} {creates : Bool}
  {outputs : Nat → Output} {done : List Written → Nat → IndexEntry → Bytes → Prop}

theorem outputPath_inj {id other : EntryID}
    (h : outputPath outputDir id = outputPath outputDir other) : id = other := by
  have hlists := congrArg String.toList h
  simp only [outputPath, String.toList_append, List.append_cancel_left_eq] at hlists
  change id.toNat.repr.toList = other.toNat.repr.toList at hlists
  rw [Nat.toList_repr, Nat.toList_repr] at hlists
  have hnumbers := congrArg (Nat.ofDigitChars 10 · 0) hlists
  simp only [Nat.ofDigitChars_ten_toDigits] at hnumbers
  exact UInt64.toNat.inj hnumbers

/-! ### The loop -/

/-- What the write of one entry may leave behind. -/
structure WrittenFor (platform : Platform) (reader : ArchiveReader) (outputDir : String)
    (outputs : Nat → Output) (file : Written) (entry : ArchiveEntry) : Prop where
  path : file.path = outputPath outputDir entry.id
  opens : (outputs file.index).opens = true
  content : ∃ data, reader.readEntryData platform entry = .ok data
    ∧ file.content = data.take (outputs file.index).room

theorem mem_extractLoop {entries : List ArchiveEntry} {i : Nat} {written : List Written}
    {file : Written}
    (hfile : file ∈ (reader.extractLoop platform outputDir outputs entries i written).2) :
    file ∈ written ∨ ∃ j entry, entries[j]? = some entry ∧ file.index = i + j
      ∧ WrittenFor platform reader outputDir outputs file entry := by
  induction entries generalizing i written with
  | nil => exact Or.inl hfile
  | cons head entries ih =>
      have hlater : (∃ j entry, entries[j]? = some entry ∧ file.index = i + 1 + j
            ∧ WrittenFor platform reader outputDir outputs file entry) →
          ∃ j entry, (head :: entries)[j]? = some entry ∧ file.index = i + j
            ∧ WrittenFor platform reader outputDir outputs file entry := by
        rintro ⟨j, entry, hentry, hindex, hfor⟩
        refine ⟨j + 1, entry, by simpa using hentry, ?_, hfor⟩
        omega
      rw [extractLoop] at hfile
      split at hfile
      next => exact (ih hfile).imp_right hlater
      next => exact Or.inl hfile
      next => exact Or.inl hfile
      next data hdata =>
          rcases ih hfile with hmem | hmem
          · by_cases hopens : (outputs i).opens = true
            · rw [if_pos hopens, List.mem_append, List.mem_singleton] at hmem
              rcases hmem with hmem | rfl
              · exact Or.inl hmem
              · exact Or.inr ⟨0, head, rfl, rfl, rfl, hopens, data, hdata, rfl⟩
            · rw [if_neg hopens] at hmem
              exact Or.inl hmem
          · exact Or.inr (hlater hmem)

theorem mem_extractLoop_of_mem {entries : List ArchiveEntry} {i : Nat} {written : List Written}
    {file : Written} (hfile : file ∈ written) :
    file ∈ (reader.extractLoop platform outputDir outputs entries i written).2 := by
  induction entries generalizing i written with
  | nil => exact hfile
  | cons head entries ih =>
      rw [extractLoop]
      split
      next => exact ih hfile
      next => exact hfile
      next => exact hfile
      next =>
          apply ih
          split
          · exact List.mem_append_left _ hfile
          · exact hfile

/-- Where every entry is read, the file of each that opens is written. -/
theorem mem_extractLoop_of_reads (outputDir : String) {entries : List ArchiveEntry} (i : Nat)
    (written : List Written)
    (hreads : ∀ entry ∈ entries, ∃ data, reader.readEntryData platform entry = .ok data)
    {j : Nat} {entry : ArchiveEntry} (hentry : entries[j]? = some entry) {data : Bytes}
    (hdata : reader.readEntryData platform entry = .ok data)
    (hopens : (outputs (i + j)).opens = true) :
    { index := i + j
      path := outputPath outputDir entry.id
      content := data.take (outputs (i + j)).room }
      ∈ (reader.extractLoop platform outputDir outputs entries i written).2 := by
  induction entries generalizing i j written with
  | nil => cases hentry
  | cons head entries ih =>
      obtain ⟨first, hfirst⟩ := hreads head List.mem_cons_self
      rw [extractLoop, hfirst]
      cases j with
      | zero =>
          obtain rfl : head = entry := Option.some.inj hentry
          obtain rfl : first = data := Except.ok.inj (hfirst.symm.trans hdata)
          apply mem_extractLoop_of_mem
          rw [Nat.add_zero] at hopens ⊢
          rw [if_pos hopens]
          exact List.mem_append_right _ (List.mem_singleton_self _)
      | succ j =>
          have hrest : entries[j]? = some entry := by simpa using hentry
          have hnext : i + (j + 1) = i + 1 + j := by omega
          rw [hnext] at hopens ⊢
          exact ih _ _ (fun entry hmem => hreads entry (List.mem_cons_of_mem _ hmem)) hrest hopens

/-- The loop never returns an error. -/
theorem status_extractLoop (entries : List ArchiveEntry) (i : Nat) (written : List Written)
    (code : ErrorCode) :
    (reader.extractLoop platform outputDir outputs entries i written).1
      ≠ some (.returned code) := by
  induction entries generalizing i written with
  | nil => exact fun h => by cases h
  | cons head entries ih =>
      rw [extractLoop]
      split
      next => exact ih _ _
      next => exact fun h => by cases h
      next => exact fun h => by cases h
      next => exact ih _ _

/-! ### The whole extraction -/

theorem extractAll_eq (platform : Platform) (outputDir : String) (outputs : Nat → Output)
    (hopen : reader.isOpen = true) :
    reader.extractAll platform outputDir true outputs
      = some (reader.extractLoop platform outputDir outputs
          (reader.indexManager.entries.map ofIndexEntry) 0 []) := by
  simp [extractAll, listEntries, hopen]

theorem extractAll_of_not_open (hopen : reader.isOpen = false) :
    reader.extractAll platform outputDir creates outputs
      = some (some (.returned .ioError), []) := by
  simp [extractAll, listEntries, hopen, notOpen]

/-- A file that is written belongs to an entry that was read and whose output opened. -/
theorem mem_extractAll (hopen : reader.isOpen = true) {status : Status} {written : List Written}
    (hresult : reader.extractAll platform outputDir true outputs = some (status, written))
    {file : Written} (hfile : file ∈ written) :
    ∃ entry, reader.indexManager.entries[file.index]? = some entry
      ∧ WrittenFor platform reader outputDir outputs file (ofIndexEntry entry) := by
  rw [extractAll_eq platform outputDir outputs hopen] at hresult
  have hwritten : (reader.extractLoop platform outputDir outputs
      (reader.indexManager.entries.map ofIndexEntry) 0 []).2 = written :=
    congrArg Prod.snd (Option.some.inj hresult)
  rw [← hwritten] at hfile
  rcases mem_extractLoop hfile with hnone | ⟨j, entry, hentry, hindex, hfor⟩
  · cases hnone
  · rw [List.getElem?_map] at hentry
    obtain ⟨indexed, hindexed, rfl⟩ := Option.map_eq_some_iff.mp hentry
    rw [Nat.zero_add] at hindex
    exact ⟨indexed, hindex ▸ hindexed, hfor⟩

theorem mem_of_fileAt {written : List Written} {path : String} {content : Bytes}
    (h : fileAt written path = some content) :
    ∃ file ∈ written, file.path = path ∧ file.content = content := by
  obtain ⟨file, hfind, hcontent⟩ := Option.map_eq_some_iff.mp h
  have hpath := List.find?_some hfind
  exact ⟨file, List.mem_reverse.mp (List.mem_of_find?_eq_some hfind), of_decide_eq_true hpath,
    hcontent⟩

theorem exists_fileAt {written : List Written} {file : Written} (hfile : file ∈ written) :
    ∃ content, fileAt written file.path = some content := by
  have hfound : (written.reverse.find? fun other => other.path = file.path).isSome := by
    rw [List.find?_isSome]
    exact ⟨file, List.mem_reverse.mpr hfile, decide_eq_true rfl⟩
  obtain ⟨last, hlast⟩ := Option.isSome_iff_exists.mp hfound
  exact ⟨last.content, Option.map_eq_some_iff.mpr ⟨last, hlast, rfl⟩⟩

/-- The loop returns no error, so what is reported is all that there is. -/
theorem Reports.extracted (h : Reports platform reader outputDir true outputs done)
    (hopen : reader.isOpen = true) {i : Nat} {entry : IndexEntry}
    (hentry : reader.indexManager.entries[i]? = some entry) :
    ∃ status written data, reader.extractAll platform outputDir true outputs
        = some (status, written)
      ∧ reader.readEntryData platform (ofIndexEntry entry) = .ok data
      ∧ done written i entry data := by
  have hresult := extractAll_eq platform outputDir outputs hopen
  obtain ⟨data, hdata, hdone⟩ := h _ _ hresult (status_extractLoop _ 0 []) i entry hentry
  exact ⟨_, _, data, hresult, hdata, hdone⟩

theorem flawless_of_reports (hopen : reader.isOpen = true)
    (h : Reports platform reader outputDir true outputs (Wrote outputDir)) :
    Flawless platform reader outputs := by
  constructor
  case reads =>
      intro entry hentry
      obtain ⟨i, hi⟩ := List.mem_iff_getElem?.mp hentry
      obtain ⟨-, -, data, -, hdata, -⟩ := h.extracted hopen hi
      exact ⟨data, hdata⟩
  case outputs =>
      intro i entry data hentry hdata
      obtain ⟨status, written, read, hresult, hread, hmem⟩ := h.extracted hopen hentry
      obtain rfl : read = data := Except.ok.inj (hread.symm.trans hdata)
      obtain ⟨indexed, hindexed, hfor⟩ := mem_extractAll hopen hresult hmem
      obtain rfl : entry = indexed := Option.some.inj (hentry.symm.trans hindexed)
      obtain ⟨content, hcontent, htake⟩ := hfor.content
      obtain rfl : read = content := Except.ok.inj (hread.symm.trans hcontent)
      refine ⟨hfor.opens, ?_⟩
      have hlength : read.length = min (outputs i).room read.length :=
        (congrArg List.length htake).trans List.length_take
      omega

/-- Two entries of one id would need two contents in one file. -/
theorem consistent_of_reports (hopen : reader.isOpen = true)
    (h : Reports platform reader outputDir true outputs (Lasts outputDir)) :
    Consistent platform reader := by
  intro entry hentry other hother hid
  obtain ⟨i, hi⟩ := List.mem_iff_getElem?.mp hentry
  obtain ⟨j, hj⟩ := List.mem_iff_getElem?.mp hother
  obtain ⟨status, written, data, hresult, hdata, -, hfile⟩ := h.extracted hopen hi
  obtain ⟨status', written', data', hresult', hdata', -, hfile'⟩ := h.extracted hopen hj
  obtain ⟨-, rfl⟩ : status = status' ∧ written = written' :=
    Prod.mk.inj (Option.some.inj (hresult.symm.trans hresult'))
  rw [← hid, hfile] at hfile'
  rw [hdata, hdata', Option.some.inj hfile']

theorem Flawless.reports (h : Flawless platform reader outputs) (hopen : reader.isOpen = true) :
    Reports platform reader outputDir true outputs (Wrote outputDir) := by
  intro status written hresult _ i entry hentry
  have hreads : ∀ entry ∈ reader.indexManager.entries.map ofIndexEntry,
      ∃ data, reader.readEntryData platform entry = .ok data := by
    intro entry hmem
    obtain ⟨indexed, hindexed, rfl⟩ := List.mem_map.mp hmem
    exact h.reads indexed hindexed
  obtain ⟨data, hdata⟩ := h.reads entry (List.mem_of_getElem? hentry)
  obtain ⟨hopens, hroom⟩ := h.outputs i entry data hentry hdata
  have hmapped : (reader.indexManager.entries.map ofIndexEntry)[i]? = some (ofIndexEntry entry) := by
    rw [List.getElem?_map, hentry, Option.map_some]
  have hwrites := mem_extractLoop_of_reads outputDir 0 [] hreads hmapped hdata
    (by rwa [Nat.zero_add])
  rw [Nat.zero_add, List.take_of_length_le hroom] at hwrites
  rw [extractAll_eq platform outputDir outputs hopen] at hresult
  rw [Option.some.inj hresult] at hwrites
  exact ⟨data, hdata, hwrites⟩

/-- The last file of a name may belong to another entry, but then to one of the same data. -/
theorem Flawless.lasts (h : Flawless platform reader outputs) (hids : Consistent platform reader)
    (hopen : reader.isOpen = true) :
    Reports platform reader outputDir true outputs (Lasts outputDir) := by
  intro status written hresult hstatus i entry hentry
  obtain ⟨data, hdata, hmem⟩ := h.reports hopen status written hresult hstatus i entry hentry
  refine ⟨data, hdata, hmem, ?_⟩
  obtain ⟨content, hcontent⟩ := exists_fileAt hmem
  obtain ⟨last, hlast, hpath, hlastContent⟩ := mem_of_fileAt hcontent
  obtain ⟨other, hother, hfor⟩ := mem_extractAll hopen hresult hlast
  have hid : other.entryId = entry.entryId := outputPath_inj (hfor.path.symm.trans hpath)
  have hsame := hids other (List.mem_of_getElem? hother) entry (List.mem_of_getElem? hentry) hid
  obtain ⟨read, hread, htake⟩ := hfor.content
  obtain rfl : read = data := Except.ok.inj (hread.symm.trans (hsame.trans hdata))
  have hroom := (h.outputs last.index other read hother hread).2
  rw [List.take_of_length_le hroom] at htake
  rw [hcontent, ← hlastContent, htake]

theorem Reports.mono {less : List Written → Nat → IndexEntry → Bytes → Prop}
    (h : Reports platform reader outputDir creates outputs done)
    (hless : ∀ written i entry data, done written i entry data → less written i entry data) :
    Reports platform reader outputDir creates outputs less := by
  intro status written hresult hstatus i entry hentry
  obtain ⟨data, hdata, hdone⟩ := h status written hresult hstatus i entry hentry
  exact ⟨data, hdata, hless _ _ _ _ hdone⟩

/-- Where an error is returned or nothing is, nothing is claimed. -/
theorem reports_of_no_result (h : reader.isOpen = false ∨ creates = false) :
    Reports platform reader outputDir creates outputs done := by
  intro status written hresult hstatus
  cases hopen : reader.isOpen with
  | false =>
      rw [extractAll_of_not_open hopen] at hresult
      cases hresult
      exact absurd rfl (hstatus .ioError)
  | true =>
      obtain rfl : creates = false := h.resolve_left (by rw [hopen]; decide)
      simp [extractAll, listEntries, hopen] at hresult

/-- **What success of `extractAll` stands for**: nothing, unless nothing could fail. -/
theorem reports_iff (platform : Platform) (reader : ArchiveReader) (outputDir : String)
    (creates : Bool) (outputs : Nat → Output) :
    (Reports platform reader outputDir creates outputs (Wrote outputDir)
        ↔ (reader.isOpen = false ∨ creates = false) ∨ Flawless platform reader outputs)
      ∧ (Reports platform reader outputDir creates outputs (Lasts outputDir)
        ↔ (reader.isOpen = false ∨ creates = false)
          ∨ Flawless platform reader outputs ∧ Consistent platform reader) := by
  by_cases hnone : reader.isOpen = false ∨ creates = false
  · exact ⟨iff_of_true (reports_of_no_result hnone) (Or.inl hnone),
      iff_of_true (reports_of_no_result hnone) (Or.inl hnone)⟩
  · rw [or_iff_right hnone, or_iff_right hnone]
    rw [not_or, Bool.not_eq_false, Bool.not_eq_false] at hnone
    obtain ⟨hopen, rfl⟩ := hnone
    constructor
    · exact ⟨flawless_of_reports hopen, fun h => h.reports hopen⟩
    · constructor
      · intro h
        exact ⟨flawless_of_reports hopen (h.mono fun _ _ _ _ hlasts => hlasts.1),
          consistent_of_reports hopen h⟩
      · rintro ⟨h, hids⟩
        exact h.lasts hids hopen

/-- No output file opens, and the extraction of an intact archive of one entry succeeds. -/
theorem not_reports_plainBlob :
    ∃ reader, openArchive Platform.reference {}
          (some (Session.plainBlob.archive Platform.reference)) = (reader, none)
      ∧ reader.indexManager.entries.length = 1
      ∧ (∀ entry ∈ reader.indexManager.entries,
        reader.readEntryData Platform.reference (ofIndexEntry entry) = .ok [0x61, 0x62, 0x63])
      ∧ reader.extractAll Platform.reference "out" true (fun _ => { opens := false, room := 0 })
        = some (none, [])
      ∧ ¬ Reports Platform.reference reader "out" true (fun _ => { opens := false, room := 0 })
        (Wrote "out") := by
  have hclosed : (Session.plainBlob.closed Platform.reference).2 = none := by decide +kernel
  have hone : (Session.plainBlob.records Platform.reference).map (fun record =>
      (record.isDirectory, record.stored, record.data))
      = [(false, [0x61, 0x62, 0x63], [0x61, 0x62, 0x63])] := by decide +kernel
  have hflags : ¬ ArchiveWriter.openFlags (Session.plainBlob.configured Platform.reference).config
      &&& HeaderFlags.compressed ≠ 0 := by decide +kernel
  obtain ⟨record, hrecords, hfields⟩ := List.map_eq_singleton_iff.mp hone
  simp only [Prod.mk.injEq] at hfields
  obtain ⟨hdirectory, hstored, hdata⟩ := hfields
  obtain ⟨reader, hopen, h⟩ := Session.reopen hclosed {}
  have hentries := h.entries
  rw [hrecords, List.map_singleton] at hentries
  have hread : reader.readEntryData Platform.reference
      (ofIndexEntry (IndexManager.toIndexEntry record.entry)) = .ok [0x61, 0x62, 0x63] := by
    apply (h.readEntryData_iff (by simp [hrecords]) hdirectory rfl _).mpr
    rw [hstored, hdata, restored_of_not_compressed hflags]
    exact ⟨rfl, fun _ => rfl⟩
  have hresult : reader.extractAll Platform.reference "out" true
      (fun _ => { opens := false, room := 0 }) = some (none, []) := by
    rw [extractAll_eq _ _ _ h.isOpen, hentries, List.map_singleton, extractLoop, hread]
    rfl
  refine ⟨reader, hopen, by rw [hentries]; rfl, ?_, hresult, ?_⟩
  · rw [hentries]
    intro entry hentry
    rw [List.mem_singleton.mp hentry, hread]
  · intro hreports
    obtain ⟨data, -, hmem⟩ := hreports none [] hresult (fun _ h => by cases h) 0 _
      (by rw [hentries]; rfl)
    cases hmem

end ArchiveReader

end NebulaFS
