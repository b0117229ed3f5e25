import NebulaFS.Checksum
import NebulaFS.Lib.LittleEndian

/-!
# The archive header

`format::ArchiveHeader` and `archive/ArchiveHeader.cpp`: a packed structure of 158 bytes, copied to
and from the file as it lies in memory of a little-endian machine. A stored checksum of zero counts
as no checksum.
-/

namespace NebulaFS

open Cursor LittleEndian

namespace HeaderFlags

def none : UInt16 := 0x0000
def encrypted : UInt16 := 0x0001
def journaled : UInt16 := 0x0002
def recovery : UInt16 := 0x0004
def dedup : UInt16 := 0x0020
def compressed : UInt16 := 0x0100

end HeaderFlags

/-- `NBF\x01`. -/
def archiveMagic : ByteArr 4 := ⟨[0x4E, 0x42, 0x46, 0x01], rfl⟩

structure ArchiveHeader where
  magic : ByteArr 4 := archiveMagic
  versionMajor : UInt16 := 1
  versionMinor : UInt16 := 0
  flags : UInt16 := 0
  archiveSize : UInt64 := 0
  metadataOffset : UInt64 := 0
  directoryOffset : UInt64 := 0
  indexOffset : UInt64 := 0
  chunkOffset : UInt64 := 0
  blocksOffset : UInt64 := 0
  journalOffset : UInt64 := 0
  entryCount : UInt64 := 0
  metadataSize : UInt64 := 0
  directorySize : UInt64 := 0
  indexSize : UInt64 := 0
  chunkSize : UInt64 := 0
  blocksSize : UInt64 := 0
  journalSize : UInt64 := 0
  headerChecksum : UInt32 := 0
  archiveChecksum : ByteArr 32 := zeroArr 32
deriving DecidableEq

namespace ArchiveHeader

/-- `sizeof(format::ArchiveHeader)`. -/
def headerSize : Nat := 158

def serialize (header : ArchiveHeader) : Bytes :=
  header.magic.toList ++ (leBytes 2 header.versionMajor.toNat
    ++ (leBytes 2 header.versionMinor.toNat ++ (leBytes 2 header.flags.toNat
    ++ (leBytes 8 header.archiveSize.toNat ++ (leBytes 8 header.metadataOffset.toNat
    ++ (leBytes 8 header.directoryOffset.toNat ++ (leBytes 8 header.indexOffset.toNat
    ++ (leBytes 8 header.chunkOffset.toNat ++ (leBytes 8 header.blocksOffset.toNat
    ++ (leBytes 8 header.journalOffset.toNat ++ (leBytes 8 header.entryCount.toNat
    ++ (leBytes 8 header.metadataSize.toNat ++ (leBytes 8 header.directorySize.toNat
    ++ (leBytes 8 header.indexSize.toNat ++ (leBytes 8 header.chunkSize.toNat
    ++ (leBytes 8 header.blocksSize.toNat ++ (leBytes 8 header.journalSize.toNat
    ++ (leBytes 4 header.headerChecksum.toNat ++ header.archiveChecksum.toList))))))))))))))))))

def field (data : Bytes) (pos width : Nat) : Nat := leValue (slice data pos width)

/-- `memcpy` of the first 158 bytes into the structure. -/
def ofBytes (data : Bytes) (h : headerSize ≤ data.length) : ArchiveHeader :=
  { magic := ⟨slice data 0 4, length_slice (by rw [headerSize] at h; omega)⟩
    versionMajor := UInt16.ofNat (field data 4 2)
    versionMinor := UInt16.ofNat (field data 6 2)
    flags := UInt16.ofNat (field data 8 2)
    archiveSize := UInt64.ofNat (field data 10 8)
    metadataOffset := UInt64.ofNat (field data 18 8)
    directoryOffset := UInt64.ofNat (field data 26 8)
    indexOffset := UInt64.ofNat (field data 34 8)
    chunkOffset := UInt64.ofNat (field data 42 8)
    blocksOffset := UInt64.ofNat (field data 50 8)
    journalOffset := UInt64.ofNat (field data 58 8)
    entryCount := UInt64.ofNat (field data 66 8)
    metadataSize := UInt64.ofNat (field data 74 8)
    directorySize := UInt64.ofNat (field data 82 8)
    indexSize := UInt64.ofNat (field data 90 8)
    chunkSize := UInt64.ofNat (field data 98 8)
    blocksSize := UInt64.ofNat (field data 106 8)
    journalSize := UInt64.ofNat (field data 114 8)
    headerChecksum := UInt32.ofNat (field data 122 4)
    archiveChecksum := ⟨slice data 126 32, length_slice (by rw [headerSize] at h; omega)⟩ }

def isValidMagic (header : ArchiveHeader) : Bool := header.magic = archiveMagic

def isVersionSupported (header : ArchiveHeader) : Bool :=
  header.versionMajor = 1 && header.versionMinor ≤ 0

def isValid (header : ArchiveHeader) : Bool := header.isValidMagic && header.isVersionSupported

section

variable (platform : Platform)

def computedChecksum (header : ArchiveHeader) : UInt32 :=
  ChecksumEngine.crc32 platform { header with headerChecksum := 0 }.serialize

def verifyChecksum (header : ArchiveHeader) : Bool :=
  header.headerChecksum = 0 || header.computedChecksum platform = header.headerChecksum

def updateChecksum (header : ArchiveHeader) : ArchiveHeader :=
  { header with headerChecksum := header.computedChecksum platform }

def parse (header : ArchiveHeader) (data : Bytes) : ArchiveHeader × Status :=
  if h : data.length < headerSize then (header, some (.returned .corruptHeader))
  else
    let header := ofBytes data (Nat.not_lt.mp h)
    if ¬ header.isValid then (header, some (.returned .invalidMagic))
    else if ¬ header.isVersionSupported then (header, some (.returned .unsupportedVersion))
    else if ¬ header.verifyChecksum platform then (header, some (.returned .checksumMismatch))
    else (header, none)

end

end ArchiveHeader

end NebulaFS
