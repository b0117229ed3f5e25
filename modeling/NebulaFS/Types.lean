import Mathlib.Data.List.AList
import Mathlib.Data.Vector.Basic
import NebulaFS.Lib.Cursor

/-!
# The shared types

The enumerations and records of `Types.hpp` and `Error.hpp`. A `std::string` and a
`std::vector<uint8_t>` are both a list of bytes, fixed-width integers keep their width, and an
enumeration over `uint8_t` that the code fills by a cast from a byte keeps the values that have no
name. What a routine hands back is a status: nothing on success, the returned error code, or the
fact that it left its buffer.
-/

namespace NebulaFS

abbrev Bytes := List UInt8

abbrev EntryID := UInt64

/-- `std::array<uint8_t, n>`. -/
abbrev ByteArr (n : Nat) := List.Vector UInt8 n

/-- `kChecksumLength` bytes of a content digest. -/
abbrev ChecksumValue := ByteArr 32

def zeroArr (n : Nat) : ByteArr n := List.Vector.replicate n 0

/-- `std::unordered_map`; its iteration order is the one of the list. -/
abbrev UnorderedMap (κ ν : Type) := AList (fun _ : κ => ν)

/-- The modulus of `size_t` and `uint64_t` arithmetic. -/
def wordSize : Nat := 2 ^ 64

inductive ErrorCode
  | invalidMagic
  | unsupportedVersion
  | corruptHeader
  | corruptMetadata
  | corruptDirectory
  | corruptIndex
  | corruptChunkTable
  | corruptBlock
  | checksumMismatch
  | decompressionError
  | encryptionError
  | entryNotFound
  | duplicateEntry
  | invalidPath
  | nameTooLong
  | depthExceeded
  | outOfRange
  | ioError
  | noSpace
  | notAnArchive
  | archiveTooLarge
  | journalCorrupt
  | journalFull
  | recoveryRequired
  | invalidOperation
  | notImplemented
  | versionMismatch
  | encryptionRequired
  | authenticationFailed
  | insufficientPermissions
  | internalError
  | outOfMemory
deriving DecidableEq

def ErrorCode.message : ErrorCode → String
  | .invalidMagic => "invalid magic bytes"
  | .unsupportedVersion => "unsupported archive version"
  | .corruptHeader => "corrupt archive header"
  | .corruptMetadata => "corrupt metadata section"
  | .corruptDirectory => "corrupt directory tree"
  | .corruptIndex => "corrupt index table"
  | .corruptChunkTable => "corrupt chunk table"
  | .corruptBlock => "corrupt compressed block"
  | .checksumMismatch => "checksum mismatch"
  | .decompressionError => "decompression failure"
  | .encryptionError => "encryption/decryption failure"
  | .entryNotFound => "entry not found"
  | .duplicateEntry => "duplicate entry"
  | .invalidPath => "invalid path"
  | .nameTooLong => "filename too long"
  | .depthExceeded => "directory depth exceeded"
  | .outOfRange => "offset out of range"
  | .ioError => "I/O error"
  | .noSpace => "no space left"
  | .notAnArchive => "not a NebulaFS archive"
  | .archiveTooLarge => "archive exceeds size limit"
  | .journalCorrupt => "journal is corrupt"
  | .journalFull => "journal is full"
  | .recoveryRequired => "recovery required before use"
  | .invalidOperation => "invalid operation for current mode"
  | .notImplemented => "feature not implemented"
  | .versionMismatch => "version mismatch"
  | .encryptionRequired => "encryption required"
  | .authenticationFailed => "authentication failed"
  | .insufficientPermissions => "insufficient permissions"
  | .internalError => "internal error"
  | .outOfMemory => "out of memory"

/-- What can end a routine early. Besides the error it returns there is a read outside its buffer,
where the source has no defined behaviour. `outOfFuel` marks the end of a recursion bound and is
never reached on the bounds the routines pass. -/
inductive Fault (ε : Type)
  | returned (e : ε)
  | outOfBounds
  | outOfFuel
deriving DecidableEq

/-- `std::error_code`, with `none` for success. -/
abbrev Status := Option (Fault ErrorCode)

inductive EntryType
  | file
  | directory
  | symlink
  | hardlink
  | block
  | reserved
deriving DecidableEq

inductive CompressionAlgorithm
  | none
  | lz4
  | zlib
  | zstd
deriving DecidableEq

inductive EncryptionAlgorithm
  | none
  | aes256gcm
  | chaCha20Poly
deriving DecidableEq

inductive HashAlgorithm
  | crc32
  | sha256
  | blake3
deriving DecidableEq

inductive DedupStrategy
  | none
  | fixed
  | content
deriving DecidableEq

inductive ParserState
  | init
  | header
  | metadata
  | directoryTree
  | indexTable
  | chunkTable
  | compressedBlocks
  | objectRecon
  | complete
  | error
deriving DecidableEq

inductive ErrorSeverity
  | warning
  | recoverable
  | fatal
deriving DecidableEq

structure Timestamp where
  seconds : Int64 := 0
  nanos : UInt32 := 0
deriving DecidableEq, Inhabited

structure Permissions where
  ownerRead : Bool := true
  ownerWrite : Bool := true
  ownerExec : Bool := false
  groupRead : Bool := true
  groupWrite : Bool := false
  groupExec : Bool := false
  otherRead : Bool := true
  otherWrite : Bool := false
  otherExec : Bool := false
deriving DecidableEq, Inhabited

/-- A bit set, as the source combines the flags with `|` and `&`. -/
abbrev EntryFlags := UInt32

namespace EntryFlags

def none : EntryFlags := 0x00000000
def compressed : EntryFlags := 0x00000001
def encrypted : EntryFlags := 0x00000002

end EntryFlags

structure ArchiveEntry where
  id : EntryID := 0
  type : EntryType := .file
  flags : EntryFlags := EntryFlags.none
  name : Bytes := []
  path : Bytes := []
  offset : UInt64 := 0
  originalSize : UInt64 := 0
  storedSize : UInt64 := 0
  createdAt : Timestamp := {}
  modifiedAt : Timestamp := {}
  permissions : Permissions := {}
  checksum : ChecksumValue := zeroArr 32
  compression : CompressionAlgorithm := .none
deriving DecidableEq

structure ParseError where
  severity : ErrorSeverity := .fatal
  state : ParserState := .init
  offset : UInt64 := 0
  message : String := ""
deriving DecidableEq

def toParseError (ec : ErrorCode) (state : ParserState) (offset : UInt64)
    (message : String := "") : ParseError :=
  { state := state
    offset := offset
    message := if message.isEmpty then ec.message else message
    severity := if ec = .corruptHeader ∨ ec = .checksumMismatch then .fatal else .recoverable }

/-- `Result<T>`, and the reads that leave the buffer. -/
abbrev Result (α : Type) := Except (Fault ParseError) α

structure ChunkDescriptor where
  hash : ChecksumValue := zeroArr 32
  offset : UInt64 := 0
  compressedSize : UInt64 := 0
  originalSize : UInt64 := 0
  /-- The byte `static_cast<uint8_t>(compression)`; a decoded table may hold any. -/
  compression : UInt8 := 0
  encrypted : Bool := false
deriving DecidableEq

structure IndexEntry where
  entryId : EntryID := 0
  offset : UInt64 := 0
  size : UInt64 := 0
  checksum : ChecksumValue := zeroArr 32
deriving DecidableEq

structure DirectoryNode where
  name : Bytes := []
  id : EntryID := 0
  parentId : EntryID := 0
  children : List DirectoryNode := []
  files : List EntryID := []
  modifiedAt : Timestamp := {}
  permissions : Permissions := {}
deriving Inhabited

/-- `JournalEntryType`. The values without a name are those a byte of a journal file can be cast
to. -/
inductive JournalEntryType
  | beginCheckpoint
  | endCheckpoint
  | createEntry
  | updateEntry
  | deleteEntry
  | renameEntry
  | writeBlock
  | commit
  | abort
  | unnamed (raw : {b : UInt8 // b = 0 ∨ 9 < b})
deriving DecidableEq

namespace JournalEntryType

def toByte : JournalEntryType → UInt8
  | beginCheckpoint => 0x01
  | endCheckpoint => 0x02
  | createEntry => 0x03
  | updateEntry => 0x04
  | deleteEntry => 0x05
  | renameEntry => 0x06
  | writeBlock => 0x07
  | commit => 0x08
  | abort => 0x09
  | unnamed raw => raw

def ofByte (b : UInt8) : JournalEntryType :=
  if h : b = 0 ∨ 9 < b then unnamed ⟨b, h⟩
  else if b = 0x01 then beginCheckpoint
  else if b = 0x02 then endCheckpoint
  else if b = 0x03 then createEntry
  else if b = 0x04 then updateEntry
  else if b = 0x05 then deleteEntry
  else if b = 0x06 then renameEntry
  else if b = 0x07 then writeBlock
  else if b = 0x08 then commit
  else abort

@[simp]
theorem ofByte_toByte (type : JournalEntryType) : ofByte type.toByte = type := by
  cases type with
  | unnamed raw => simp [ofByte, toByte, raw.property]
  | _ => rfl

def isData : JournalEntryType → Bool
  | createEntry | updateEntry | deleteEntry | renameEntry | writeBlock => true
  | _ => false

end JournalEntryType

structure JournalEntry where
  type : JournalEntryType := .beginCheckpoint
  sequence : UInt64 := 0
  timestamp : Timestamp := {}
  data : Bytes := []
  checksum : ChecksumValue := zeroArr 32
deriving DecidableEq

end NebulaFS
