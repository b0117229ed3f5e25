import NebulaFS.Proof.ArchiveImage

/-!
# Finding entries in a finished archive

The entries of a session have the ids from 1 on, so the index finds the entry with id `k` at position
`k - 1` (`Reopened.findById`). A path is looked up through the node it leads to, whose id is the
entry's own if the path is that of an entry. For a directory that was only made on the way to an entry
it is the id after that entry's, which is the next entry's as soon as there is one. So a path that was
never added leads to an unrelated entry, unless the next entry happens to be added under it
(`findEntryByPath_sound_iff`).
-/

namespace NebulaFS

open Cursor ArchiveHeader

/-! ### The map by id -/

namespace IndexManager

theorem indexById_append_singleton (entries : List IndexEntry) (entry : IndexEntry) :
    indexById (entries ++ [entry]) = (indexById entries).insert entry.entryId entries.length := by
  simp [indexById, List.zipIdx_append]

theorem lookup_indexById_of_notMem {entries : List IndexEntry} {id : EntryID}
    (h : id ∉ entries.map (·.entryId)) : (indexById entries).lookup id = none := by
  induction entries using List.reverseRecOn with
  | nil => rfl
  | append_singleton entries entry ih =>
      rw [List.map_append, List.mem_append, not_or, List.map_singleton, List.mem_singleton] at h
      rw [indexById_append_singleton, AList.lookup_insert_ne h.2]
      exact ih h.1

theorem lookup_indexById {entries : List IndexEntry} (hnodup : (entries.map (·.entryId)).Nodup)
    {i : Nat} {entry : IndexEntry} (hentry : entries[i]? = some entry) :
    (indexById entries).lookup entry.entryId = some i := by
  induction entries using List.reverseRecOn with
  | nil => simp at hentry
  | append_singleton entries last ih =>
      rw [List.map_append, List.nodup_append] at hnodup
      obtain ⟨hinit, -, hdisjoint⟩ := hnodup
      rw [indexById_append_singleton]
      by_cases hi : i < entries.length
      · rw [List.getElem?_append_left hi] at hentry
        have hmem : entry.entryId ∈ entries.map (·.entryId) :=
          List.mem_map_of_mem (List.mem_of_getElem? hentry)
        have hne : entry.entryId ≠ last.entryId := hdisjoint _ hmem _ (by simp)
        rw [AList.lookup_insert_ne hne]
        exact ih hinit hentry
      · rw [List.getElem?_append_right (by omega)] at hentry
        obtain ⟨hzero, hlast⟩ : i - entries.length = 0 ∧ last = entry := by
          simpa [List.getElem?_singleton] using hentry
        rw [← hlast, AList.lookup_insert]
        congr 1
        omega

end IndexManager

/-! ### A reader on a finished session -/

structure Held (platform : Platform) (archive : Bytes) (record : ArchiveWriter.Record) : Prop where
  size : record.entry.storedSize.toNat = record.stored.length
  inside : record.entry.offset.toNat + record.stored.length ≤ archive.length
  slice_eq : slice archive record.entry.offset.toNat record.stored.length = record.stored
  checksum : record.entry.checksum = ChecksumEngine.compute platform record.data

/-- A reader that has opened the archive of a session. -/
structure Reopened (platform : Platform) (session : Session) (config : ReaderConfig)
    (reader : ArchiveReader) : Prop where
  isOpen : reader.isOpen = true
  config_eq : reader.config = config
  compression : reader.compression = {}
  archiveData : reader.archiveData = session.archive platform
  flags : reader.header.flags = ArchiveWriter.openFlags (session.configured platform).config
  noted : reader.header.entryCount = (session.filled platform).header.entryCount
  root : reader.directoryTree.root = DirectoryTree.stored
    (DirectoryTree.insertAll {} ((session.records platform).map (·.entry))).root
  entries : reader.indexManager.entries
    = (session.records platform).map fun record => IndexManager.toIndexEntry record.entry
  idIndex : reader.indexManager.idIndex = IndexManager.indexById reader.indexManager.entries
  ids : (session.records platform).map (·.entry.id)
    = (List.range (session.records platform).length).map fun i => UInt64.ofNat (i + 1)
  count : (session.records platform).length < 2 ^ 63
  fits : (session.archive platform).length < 2 ^ 63
  held : ∀ record ∈ session.records platform, record.isDirectory = false →
    Held platform (session.archive platform) record

namespace Session

variable {platform : Platform} {session : Session}

theorem reopen (h : (session.closed platform).2 = none) (config : ReaderConfig) :
    ∃ reader, ArchiveReader.openArchive platform { config := config }
        (some (session.archive platform)) = (reader, none)
      ∧ Reopened platform session config reader := by
  obtain ⟨body, header, journal, hinv, himage, hflags, hnoted, -⟩ := closed_image h
  obtain ⟨reader, hopen, hopened⟩ := himage.openArchive config
  have hentries := hopened.entries_eq.trans hinv.index
  have hlength := himage.length_content
  refine ⟨reader, hopen, hopened.isOpen, hopened.config_eq, hopened.compression,
    hopened.archiveData, ?_, ?_, ?_, hentries, ?_, hinv.ids, ?_, himage.fits, ?_⟩
  · rw [hopened.header_eq]
    exact hflags
  · rw [hopened.header_eq]
    exact hnoted
  · rw [hopened.root, hinv.tree]
  · rw [hopened.idIndex, hopened.entries_eq]
  · have hcount := congrArg List.length hinv.index
    rw [List.length_map] at hcount
    rw [← hcount]
    exact himage.length_entries_lt
  · intro record hrecord hdata
    have hplaced := hinv.placed record hrecord hdata
    have habove := hplaced.above
    have hinside := hplaced.inside
    refine ⟨hplaced.size, by omega, ?_, hinv.sums record hrecord hdata⟩
    rw [himage.content_eq, slice_append_right (by rw [length_serialize]; omega),
      length_serialize, slice_append_left (by omega), hplaced.slice_eq]

end Session

/-- Every path that is found is the path of an entry, and leads to an entry added under it. -/
def PathsSound (reader : ArchiveReader) (records : List ArchiveWriter.Record) : Prop :=
  ∀ path entry, reader.findEntryByPath path = .ok entry →
    ∃ record ∈ records,
      DirectoryTree.splitPath record.entry.path = DirectoryTree.splitPath path
      ∧ IndexManager.toIndexEntry entry = IndexManager.toIndexEntry record.entry

/-- Every directory on the way to an entry that is not the last one added was there before, or is
added as the next entry. -/
def DirectoriesClaimed (components : List (List Bytes)) : Prop :=
  ∀ i here next parts, components[i]? = some here → components[i + 1]? = some next →
    parts ≠ [] → parts <+: here → parts ≠ here →
      (∃ earlier ∈ components.take i, parts <+: earlier) ∨ parts = next

namespace Reopened

variable {platform : Platform} {session : Session} {config : ReaderConfig}
  {reader : ArchiveReader} (h : Reopened platform session config reader)

include h

theorem id_eq {i : Nat} {record : ArchiveWriter.Record}
    (hrecord : (session.records platform)[i]? = some record) :
    record.entry.id = UInt64.ofNat (i + 1) ∧ record.entry.id.toNat = i + 1 := by
  have hi : i < (session.records platform).length := (List.getElem?_eq_some_iff.mp hrecord).1
  have hcount := h.count
  have hid := congrArg (·[i]?) h.ids
  simp only [List.getElem?_map, hrecord, Option.map_some, List.getElem?_range hi,
    Option.some.injEq] at hid
  exact ⟨hid, by rw [hid, toNat_ofNat_of_lt (by omega)]⟩

theorem ids_toNat : (session.records platform).map (·.entry.id.toNat)
    = List.range' 1 (session.records platform).length := by
  have hcount := h.count
  have hids := congrArg (List.map UInt64.toNat) h.ids
  rw [List.map_map, List.map_map] at hids
  refine hids.trans ?_
  rw [List.range'_eq_map_range]
  refine List.map_congr_left ?_
  intro i hi
  rw [List.mem_range] at hi
  rw [Function.comp_apply, toNat_ofNat_of_lt (by omega), Nat.add_comm]

theorem nodup_ids : (reader.indexManager.entries.map (·.entryId)).Nodup := by
  refine List.Nodup.of_map UInt64.toNat ?_
  rw [h.entries, List.map_map, List.map_map]
  exact h.ids_toNat ▸ List.nodup_range'

omit h in
theorem id_ne_zero {i : Nat} {id : EntryID} (hid : id.toNat = i + 1) : id ≠ 0 := by
  rintro rfl
  cases hid

theorem findById (id : EntryID) :
    reader.indexManager.findById id
      = if id = 0 then none
        else (session.records platform)[id.toNat - 1]?.map fun record =>
          IndexManager.toIndexEntry record.entry := by
  unfold IndexManager.findById
  by_cases hfound : ∃ (i : Nat) (record : ArchiveWriter.Record),
      (session.records platform)[i]? = some record ∧ record.entry.id = id
  · obtain ⟨i, record, hrecord, rfl⟩ := hfound
    have htoNat := (h.id_eq hrecord).2
    have hentry : reader.indexManager.entries[i]?
        = some (IndexManager.toIndexEntry record.entry) := by
      rw [h.entries, List.getElem?_map, hrecord, Option.map_some]
    have hlookup : reader.indexManager.idIndex.lookup record.entry.id = some i := by
      rw [h.idIndex]
      exact IndexManager.lookup_indexById h.nodup_ids hentry
    rw [hlookup, if_neg (id_ne_zero htoNat), htoNat, Nat.add_sub_cancel, hrecord]
    exact hentry
  · have hlookup : reader.indexManager.idIndex.lookup id = none := by
      rw [h.idIndex]
      refine IndexManager.lookup_indexById_of_notMem fun hmem => hfound ?_
      rw [h.entries, List.map_map] at hmem
      obtain ⟨record, hrecord, hid⟩ := List.mem_map.mp hmem
      obtain ⟨i, hi⟩ := List.mem_iff_getElem?.mp hrecord
      exact ⟨i, record, hi, hid⟩
    rw [hlookup]
    by_cases hzero : id = 0
    · rw [if_pos hzero]
    · rw [if_neg hzero]
      cases hrecord : (session.records platform)[id.toNat - 1]? with
      | none => rfl
      | some record =>
          -- the record at this position would have the id
          have hpos : id.toNat ≠ 0 := fun hnat => hzero (UInt64.toNat_inj.mp hnat)
          have htoNat := (h.id_eq hrecord).2
          exact absurd ⟨_, record, hrecord, UInt64.toNat_inj.mp (by omega)⟩ hfound

theorem findById_of_toNat {i : Nat} {id : EntryID} (hid : id.toNat = i + 1) :
    reader.indexManager.findById id
      = (session.records platform)[i]?.map fun record =>
        IndexManager.toIndexEntry record.entry := by
  rw [h.findById, if_neg (id_ne_zero hid), hid, Nat.add_sub_cancel]

theorem find_id (path : Bytes) :
    (reader.directoryTree.find path).map (·.id)
      = DirectoryTree.idAt (DirectoryTree.splitPath path)
        (DirectoryTree.insertAll {} ((session.records platform).map (·.entry))).root := by
  have hfind : reader.directoryTree.find path
      = DirectoryTree.findParts (DirectoryTree.splitPath path) reader.directoryTree.root := by
    rw [DirectoryTree.find]
    split
    · rename_i hroot
      rw [DirectoryTree.splitPath_of_root hroot.symm]
      rfl
    · rfl
  rw [hfind, h.root, DirectoryTree.findParts_stored, DirectoryTree.idAt, Option.map_map]
  congr 1
  funext node
  exact DirectoryTree.stored_id node

/-- **The lookup by path.** It is the lookup of the id that the path's node has. -/
theorem findEntryByPath_eq (path : Bytes) :
    (reader.findEntryByPath path).toOption.map IndexManager.toIndexEntry
      = (DirectoryTree.idAt (DirectoryTree.splitPath path)
          (DirectoryTree.insertAll {} ((session.records platform).map (·.entry))).root).bind
        reader.indexManager.findById := by
  rw [← h.find_id path]
  unfold ArchiveReader.findEntryByPath
  rw [if_neg (not_not.mpr h.isOpen)]
  cases reader.directoryTree.find path with
  | none => rfl
  | some node =>
      rw [Option.map_some, Option.bind_some]
      simp only
      cases reader.indexManager.findById node.id with
      | none => rfl
      | some entry => rfl

/-- A record grants its own id to its component list, and the next one to the directories on the
way. -/
theorem granted_iff {i : Nat} {record : ArchiveWriter.Record}
    (hrecord : (session.records platform)[i]? = some record) (parts : List Bytes) (id : EntryID) :
    (id = if parts = DirectoryTree.splitPath record.entry.path then record.entry.id
        else record.entry.id + 1)
      ↔ id.toNat = if parts = DirectoryTree.splitPath record.entry.path then i + 1
        else i + 2 := by
  have hcount := h.count
  have hi := (List.getElem?_eq_some_iff.mp hrecord).1
  have hid := (h.id_eq hrecord).2
  rw [← UInt64.toNat_inj]
  split
  · rw [hid]
  · rw [UInt64.toNat_add, hid, UInt64.toNat_one, Nat.mod_eq_of_lt (by omega)]

theorem idAt_iff {parts : List Bytes} (hparts : parts ≠ []) (id : EntryID) :
    DirectoryTree.idAt parts
        (DirectoryTree.insertAll {} ((session.records platform).map (·.entry))).root = some id
      ↔ ∃ i record, (session.records platform)[i]? = some record
        ∧ parts <+: DirectoryTree.splitPath record.entry.path
        ∧ (∀ earlier ∈ (session.records platform).take i,
          ¬ parts <+: DirectoryTree.splitPath earlier.entry.path)
        ∧ id.toNat = if parts = DirectoryTree.splitPath record.entry.path then i + 1
          else i + 2 := by
  rw [DirectoryTree.idAt_insertAll _ hparts, List.findSome?_map, List.findSome?_eq_some_iff]
  constructor
  · rintro ⟨before, record, after, hsplit, hgrants, hbefore⟩
    obtain ⟨hpre, hid⟩ := DirectoryTree.grants_eq_some_iff.mp hgrants
    have hrecord : (session.records platform)[before.length]? = some record := by
      rw [hsplit]
      simp
    refine ⟨before.length, record, hrecord, hpre, ?_, (h.granted_iff hrecord _ _).mp hid⟩
    intro earlier hearlier
    rw [hsplit, List.take_left] at hearlier
    exact DirectoryTree.grants_eq_none_iff.mp (hbefore earlier hearlier)
  · rintro ⟨i, record, hrecord, hpre, hfirst, hid⟩
    obtain ⟨hi, rfl⟩ := List.getElem?_eq_some_iff.mp hrecord
    refine ⟨(session.records platform).take i, _, (session.records platform).drop (i + 1), ?_,
      DirectoryTree.grants_eq_some_iff.mpr ⟨hpre, (h.granted_iff hrecord _ _).mpr hid⟩,
      fun earlier hearlier => DirectoryTree.grants_eq_none_iff.mpr (hfirst earlier hearlier)⟩
    rw [List.getElem_cons_drop, List.take_append_drop]

theorem findEntryByPath_iff (path : Bytes) (indexed : IndexEntry) :
    (∃ entry, reader.findEntryByPath path = .ok entry
      ∧ IndexManager.toIndexEntry entry = indexed)
    ↔ ∃ i record id, (session.records platform)[i]? = some record ∧ id.toNat = i + 1
      ∧ DirectoryTree.idAt (DirectoryTree.splitPath path)
        (DirectoryTree.insertAll {} ((session.records platform).map (·.entry))).root = some id
      ∧ IndexManager.toIndexEntry record.entry = indexed := by
  have hresult : (∃ entry, reader.findEntryByPath path = .ok entry
        ∧ IndexManager.toIndexEntry entry = indexed)
      ↔ (reader.findEntryByPath path).toOption.map IndexManager.toIndexEntry = some indexed := by
    cases reader.findEntryByPath path with
    | error e => simp [Except.toOption]
    | ok entry => simp [Except.toOption]
  rw [hresult, h.findEntryByPath_eq, Option.bind_eq_some_iff]
  constructor
  · rintro ⟨id, hid, hfound⟩
    rw [h.findById] at hfound
    split at hfound
    · cases hfound
    · rename_i hzero
      obtain ⟨record, hrecord, hindexed⟩ := Option.map_eq_some_iff.mp hfound
      have hpos : id.toNat ≠ 0 := fun hnat => hzero (UInt64.toNat_inj.mp hnat)
      exact ⟨id.toNat - 1, record, id, hrecord, by omega, hid, hindexed⟩
  · rintro ⟨i, record, id, hrecord, htoNat, hid, hindexed⟩
    exact ⟨id, hid, by rw [h.findById_of_toNat htoNat, hrecord, Option.map_some, hindexed]⟩

theorem eq_of_toIndexEntry_eq {i : Nat} {record other : ArchiveWriter.Record}
    (hrecord : (session.records platform)[i]? = some record)
    (hother : other ∈ session.records platform)
    (heq : IndexManager.toIndexEntry record.entry = IndexManager.toIndexEntry other.entry) :
    other = record := by
  obtain ⟨j, hj⟩ := List.mem_iff_getElem?.mp hother
  have hids : record.entry.id = other.entry.id := congrArg IndexEntry.entryId heq
  have hi := (h.id_eq hrecord).2
  have hj' := (h.id_eq hj).2
  rw [hids] at hi
  obtain rfl : i = j := by omega
  exact Option.some.inj (hj.symm.trans hrecord)

theorem directoriesClaimed_of_pathsSound (hsound : PathsSound reader (session.records platform)) :
    DirectoriesClaimed ((session.records platform).map fun record =>
      DirectoryTree.splitPath record.entry.path) := by
  intro i here next parts hhere hnext hne hpre hproper
  rw [List.getElem?_map, Option.map_eq_some_iff] at hhere hnext
  obtain ⟨record, hrecord, rfl⟩ := hhere
  obtain ⟨after, hafter, rfl⟩ := hnext
  by_cases hearlier : ∃ earlier ∈ (session.records platform).take i,
      parts <+: DirectoryTree.splitPath earlier.entry.path
  · obtain ⟨earlier, hmem, hbegins⟩ := hearlier
    refine .inl ⟨_, ?_, hbegins⟩
    rw [← List.map_take]
    exact List.mem_map_of_mem hmem
  · -- the directory has the id after the record's, and that is the next record's
    obtain ⟨path, rfl⟩ := DirectoryTree.exists_path_of_head hne hpre
    have hid : ∃ id : EntryID, id.toNat = i + 1 + 1 := by
      have hcount := h.count
      have hi := (List.getElem?_eq_some_iff.mp hafter).1
      exact ⟨UInt64.ofNat (i + 1 + 1), toNat_ofNat_of_lt (by omega)⟩
    obtain ⟨id, hid⟩ := hid
    have hat := (h.idAt_iff hne id).mpr ⟨i, record, hrecord, hpre,
      fun earlier hmem hbegins => hearlier ⟨earlier, hmem, hbegins⟩,
      by rw [if_neg hproper, hid]⟩
    obtain ⟨entry, hfound, hindexed⟩ :=
      (h.findEntryByPath_iff path _).mpr ⟨i + 1, after, id, hafter, hid, hat, rfl⟩
    obtain ⟨owner, howner, hsame, hentry⟩ := hsound path entry hfound
    rw [h.eq_of_toIndexEntry_eq hafter howner (hindexed.symm.trans hentry)] at hsame
    exact .inr hsame.symm

theorem splitPath_eq_nil_of_root {k : Nat} {record : ArchiveWriter.Record}
    (hrecord : (session.records platform)[k]? = some record)
    (hroot : (DirectoryTree.insertAll {}
      ((session.records platform).map (·.entry))).root.id.toNat = k + 1) :
    DirectoryTree.splitPath record.entry.path = [] := by
  rcases DirectoryTree.root_id_insertAll ((session.records platform).map (·.entry)) with
    hzero | ⟨other, hother, hparts, hid⟩
  · exact absurd hzero (id_ne_zero hroot)
  · obtain ⟨owner, howner, rfl⟩ := List.mem_map.mp hother
    obtain ⟨j, hj⟩ := List.mem_iff_getElem?.mp howner
    have hj' := (h.id_eq hj).2
    rw [← hid, hroot] at hj'
    obtain rfl : k = j := by omega
    rw [Option.some.inj (hrecord.symm.trans hj), hparts]

theorem pathsSound_of_directoriesClaimed
    (hclaimed : DirectoriesClaimed ((session.records platform).map fun record =>
      DirectoryTree.splitPath record.entry.path)) :
    PathsSound reader (session.records platform) := by
  have hcomponents : ∀ {j : Nat} {other : ArchiveWriter.Record},
      (session.records platform)[j]? = some other →
      ((session.records platform).map fun record =>
        DirectoryTree.splitPath record.entry.path)[j]?
        = some (DirectoryTree.splitPath other.entry.path) := by
    intro j other hother
    rw [List.getElem?_map, hother, Option.map_some]
  intro path entry hfound
  obtain ⟨k, record, id, hrecord, hid, hat, hindexed⟩ :=
    (h.findEntryByPath_iff path _).mp ⟨entry, hfound, rfl⟩
  refine ⟨record, List.mem_of_getElem? hrecord, ?_, hindexed.symm⟩
  by_cases hne : DirectoryTree.splitPath path = []
  · rw [hne, DirectoryTree.idAt_nil, Option.some.injEq] at hat
    rw [hne]
    exact h.splitPath_eq_nil_of_root hrecord (hat ▸ hid)
  · obtain ⟨i, owner, howner, hpre, hfirst, hgranted⟩ := (h.idAt_iff hne id).mp hat
    split at hgranted
    · rename_i hsame
      obtain rfl : i = k := by omega
      rw [Option.some.inj (hrecord.symm.trans howner), hsame]
    · rename_i hproper
      obtain rfl : k = i + 1 := by omega
      rcases hclaimed i _ _ _ (hcomponents howner) (hcomponents hrecord) hne hpre hproper with
        ⟨earlier, hmem, hbegins⟩ | hnext
      · rw [← List.map_take] at hmem
        obtain ⟨before, hbefore, rfl⟩ := List.mem_map.mp hmem
        exact absurd hbegins (hfirst before hbefore)
      · exact hnext.symm

end Reopened

/-! ### Sessions of blobs and directories -/

namespace ArchiveWriter

def Call.isBlobOrDirectory : Call → Bool
  | .addBlob _ _ _ _ | .addDirectory _ _ _ => true
  | .addFile _ _ _ | .addSymlink _ _ _ | .setMetadata _ _ | .setEncryptionKey _
  | .setCompression _ _ => false

def Call.request (call : Call) : Bytes × Bytes × Bool :=
  (call.path, (call.payload.map Prod.snd).getD [], call.payload.isNone)

theorem records_of_succeeds {platform : Platform} {writer : ArchiveWriter} {calls : List Call}
    (hkinds : ∀ call ∈ calls, call.isBlobOrDirectory = true)
    (hall : writer.Along platform (Succeeds platform) calls) :
    (writer.records platform calls).map
        (fun record => (record.entry.path, record.data, record.isDirectory))
      = calls.map Call.request := by
  induction calls generalizing writer with
  | nil => rfl
  | cons call calls ih =>
      obtain ⟨hcall, hrest⟩ := hall
      have htail := ih (fun other hother => hkinds other (by simp [hother])) hrest
      have hkind := hkinds call (by simp)
      rw [Succeeds] at hcall
      rw [ArchiveWriter.records, List.map_append, List.map_cons, htail, added, if_pos hcall]
      cases call with
      | addBlob around data path flags => rfl
      | addDirectory around path perms => rfl
      | addFile _ _ _ | addSymlink _ _ _ | setMetadata _ _ | setEncryptionKey _
      | setCompression _ _ => cases hkind

end ArchiveWriter

namespace Session

variable {platform : Platform} {session : Session}

/-- **Paths that were never added.** After a session of blobs and directories that all succeeded, the
lookups by path are sound if and only if every directory on the way to a path is the head of an
earlier path, or is added next, unless nothing was added after the path. -/
theorem findEntryByPath_sound_iff
    (hkinds : ∀ call ∈ session.calls, call.isBlobOrDirectory = true)
    (hall : (session.opened platform).1.Along platform (ArchiveWriter.Succeeds platform)
      session.calls)
    (hclosed : (session.closed platform).2 = none) (config : ReaderConfig) :
    ∃ reader, ArchiveReader.openArchive platform { config := config }
        (some (session.archive platform)) = (reader, none)
      ∧ (PathsSound reader (session.records platform)
        ↔ DirectoriesClaimed (session.calls.map fun call =>
          DirectoryTree.splitPath call.path)) := by
  obtain ⟨reader, hopen, h⟩ := reopen hclosed config
  have hpaths := congrArg (List.map fun request => DirectoryTree.splitPath request.1)
    (ArchiveWriter.records_of_succeeds hkinds hall)
  rw [List.map_map, List.map_map] at hpaths
  refine ⟨reader, hopen, ?_⟩
  change _ ↔ DirectoriesClaimed (session.calls.map
    ((fun request => DirectoryTree.splitPath request.1) ∘ ArchiveWriter.Call.request))
  rw [← hpaths]
  exact ⟨h.directoriesClaimed_of_pathsSound, h.pathsSound_of_directoriesClaimed⟩

def nestedThenFlat : Session where
  config := {}
  device := .ample
  calls :=
    [.addBlob .plain [0x61, 0x62, 0x63] [0x61, 0x2F, 0x62] 0,
      .addBlob .plain [0x61, 0x62, 0x63] [0x63] 0]

theorem findEntryByPath_sound_iff_nestedThenFlat :
    ∃ reader, ArchiveReader.openArchive Platform.reference {}
        (some (nestedThenFlat.archive Platform.reference)) = (reader, none)
      ∧ (PathsSound reader (nestedThenFlat.records Platform.reference)
        ↔ DirectoriesClaimed (nestedThenFlat.calls.map fun call =>
          DirectoryTree.splitPath call.path)) :=
  findEntryByPath_sound_iff (by decide) (by decide +kernel) (by decide +kernel) {}

/-- The path `a` was never added, and finds the blob `c`. -/
theorem findEntryByPath_unsound_nestedThenFlat :
    (nestedThenFlat.opened Platform.reference).1.Along Platform.reference
        (ArchiveWriter.Succeeds Platform.reference) nestedThenFlat.calls
      ∧ (nestedThenFlat.closed Platform.reference).2 = none
      ∧ ∃ reader entry, ArchiveReader.openArchive Platform.reference {}
          (some (nestedThenFlat.archive Platform.reference)) = (reader, none)
        ∧ reader.findEntryByPath [0x61] = .ok entry ∧ entry.id = 2
        ∧ ¬ PathsSound reader (nestedThenFlat.records Platform.reference) := by
  have hclosed : (nestedThenFlat.closed Platform.reference).2 = none := by decide +kernel
  have hsecond : (nestedThenFlat.records Platform.reference)[1]?.map (·.entry.id) = some 2 := by
    decide +kernel
  have hat : DirectoryTree.idAt (DirectoryTree.splitPath [0x61]) (DirectoryTree.insertAll {}
      ((nestedThenFlat.records Platform.reference).map (·.entry))).root = some 2 := by
    decide +kernel
  have hnever : ∀ parts ∈ (nestedThenFlat.records Platform.reference).map fun record =>
      DirectoryTree.splitPath record.entry.path,
      parts ≠ DirectoryTree.splitPath [0x61] := by decide +kernel
  obtain ⟨reader, hopen, h⟩ := reopen hclosed {}
  obtain ⟨record, hrecord, hid⟩ := Option.map_eq_some_iff.mp hsecond
  obtain ⟨entry, hfound, hindexed⟩ :=
    (h.findEntryByPath_iff [0x61] _).mpr ⟨1, record, 2, hrecord, rfl, hat, rfl⟩
  refine ⟨by decide +kernel, hclosed, reader, entry, hopen, hfound,
    (congrArg IndexEntry.entryId hindexed).trans hid, ?_⟩
  intro hsound
  obtain ⟨owner, howner, hsame, -⟩ := hsound [0x61] entry hfound
  exact hnever _ (List.mem_map_of_mem howner) hsame

end Session

end NebulaFS
