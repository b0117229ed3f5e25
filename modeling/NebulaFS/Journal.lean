import NebulaFS.Checksum
import NebulaFS.VarInt
import NebulaFS.Lib.LittleEndian

/-!
# The journal manager

`filesystem/JournalManager.cpp`. The journal is a queue of entries, a sequence counter, the number of
payload bytes logged, and two flags: `inCheckpoint` is what `hasUncommitted` answers and
`needsRecovery` is what it says. Every operation returns the journal after it and its status. The
readings of the clock are arguments.

`writeToFile` is a stub in the source, so a journal in file mode differs from the others only in what
`flush` calls.
-/

namespace NebulaFS

open LittleEndian Cursor

inductive JournalMode
  | disabled
  | memory
  | file
  | embedded
deriving DecidableEq

structure JournalConfig where
  mode : JournalMode := .embedded
  maxJournalSize : UInt64 := 64 * 1024 * 1024
  enableChecksums : Bool := true
  journalPath : Bytes := []
deriving DecidableEq

structure JournalManager where
  config : JournalConfig := {}
  entries : List JournalEntry := []
  sequence : UInt64 := 0
  totalJournalSize : UInt64 := 0
  inCheckpoint : Bool := false
  needsRecovery : Bool := false
  checksum : ChecksumEngine := ChecksumEngine.new .crc32
  journalFd : Int := -1
deriving DecidableEq

namespace JournalManager

/-- The constructor; `fd` is what `::open` of the journal file answers. -/
def new (config : JournalConfig) (fd : Int := -1) : JournalManager :=
  { config := config
    checksum := ChecksumEngine.new .crc32
    journalFd := if config.mode = .file ∧ config.journalPath ≠ [] then fd else -1 }

def isJournalFull (journal : JournalManager) : Bool :=
  journal.config.maxJournalSize ≤ journal.totalJournalSize

def createEntry (journal : JournalManager) (type : JournalEntryType) (data : Bytes)
    (now : Timestamp) : JournalEntry × JournalManager :=
  ({ type := type, sequence := journal.sequence, timestamp := now, data := data },
    { journal with sequence := journal.sequence + 1 })

/-- `entries_.push_back(createEntry(type, {}))`, which the marks share. They bypass `log`. -/
def pushMark (journal : JournalManager) (type : JournalEntryType) (now : Timestamp) :
    JournalManager :=
  let (entry, journal) := journal.createEntry type [] now
  { journal with entries := journal.entries ++ [entry] }

def writeToFile (_journal : JournalManager) (_entry : JournalEntry) : Status := none

def beginCheckpoint (journal : JournalManager) (now : Timestamp) : JournalManager × Status :=
  if journal.inCheckpoint then (journal, some (.returned .invalidOperation))
  else
    ({ journal.pushMark .beginCheckpoint now with inCheckpoint := true, needsRecovery := true },
      none)

def endCheckpoint (journal : JournalManager) (now : Timestamp) : JournalManager × Status :=
  if ¬ journal.inCheckpoint then (journal, some (.returned .invalidOperation))
  else ({ journal.pushMark .endCheckpoint now with inCheckpoint := false }, none)

/-- The engine of a journal is made for `CRC32`, and its digest fits. -/
def entryDigest (platform : Platform) (engine : ChecksumEngine) (entry : JournalEntry) :
    ChecksumValue :=
  ((((engine.reset.update [entry.type.toByte]).update (leBytes 8 entry.sequence.toNat)).update
    entry.data).finalize platform).getD (zeroArr 32)

section

variable (platform : Platform)

def log (journal : JournalManager) (entry : JournalEntry) : JournalManager × Status :=
  if journal.isJournalFull then (journal, some (.returned .journalFull))
  else
    let entry :=
      if journal.config.enableChecksums then
        { entry with checksum := entryDigest platform journal.checksum entry }
      else entry
    ({ journal with
        entries := journal.entries ++ [entry]
        totalJournalSize := journal.totalJournalSize + UInt64.ofNat entry.data.length },
      none)

/-- `log(createEntry(type, data))`: the sequence number is spent even when the log is full. -/
def logNew (journal : JournalManager) (type : JournalEntryType) (data : Bytes) (now : Timestamp) :
    JournalManager × Status :=
  let (entry, journal) := journal.createEntry type data now
  journal.log platform entry

def logCreate (journal : JournalManager) (id : EntryID) (data : Bytes) (now : Timestamp) :
    JournalManager × Status :=
  journal.logNew platform .createEntry (VarInt.encode id ++ data) now

def logUpdate (journal : JournalManager) (id : EntryID) (data : Bytes) (now : Timestamp) :
    JournalManager × Status :=
  journal.logNew platform .updateEntry (VarInt.encode id ++ data) now

def logDelete (journal : JournalManager) (id : EntryID) (now : Timestamp) :
    JournalManager × Status :=
  journal.logNew platform .deleteEntry (VarInt.encode id) now

def logWriteBlock (journal : JournalManager) (chunk : ChunkDescriptor) (now : Timestamp) :
    JournalManager × Status :=
  journal.logNew platform .writeBlock
    (chunk.hash.toList ++ VarInt.encode chunk.offset ++ VarInt.encode chunk.compressedSize
      ++ VarInt.encode chunk.originalSize) now

end

/-- `commit`, which reads the clock twice when it also ends the checkpoint. -/
def commit (journal : JournalManager) (endNow now : Timestamp) : JournalManager × Status :=
  let journal :=
    if journal.inCheckpoint then
      { journal.pushMark .endCheckpoint endNow with inCheckpoint := false }
    else journal
  ({ journal.pushMark .commit now with needsRecovery := false }, none)

def abort (journal : JournalManager) (now : Timestamp) : JournalManager × Status :=
  ({ journal.pushMark .abort now with inCheckpoint := false, needsRecovery := true }, none)

def recover (journal : JournalManager) : JournalManager × Status :=
  ({ journal with needsRecovery := false }, none)

def replayEntry (journal : JournalManager) (entry : JournalEntry) : JournalManager × Status :=
  match entry.type with
  | .beginCheckpoint => ({ journal with inCheckpoint := true }, none)
  | .endCheckpoint | .commit | .abort => ({ journal with inCheckpoint := false }, none)
  | _ => (journal, none)

def hasUncommitted (journal : JournalManager) : Bool := journal.inCheckpoint

def entryCount (journal : JournalManager) : Nat := journal.entries.length

def clear (journal : JournalManager) : JournalManager :=
  { journal with
    entries := []
    sequence := 0
    totalJournalSize := 0
    inCheckpoint := false
    needsRecovery := false }

/-- `flush`, given the status of `::fsync`. -/
def flush (journal : JournalManager) (fsync : Status) : JournalManager × Status :=
  (journal, if 0 ≤ journal.journalFd then fsync else none)

/-! ### The encoding -/

def serializeEntry (entry : JournalEntry) : Bytes :=
  entry.type.toByte ::
    (VarInt.encode entry.sequence
      ++ (leBytes 8 entry.timestamp.seconds.toUInt64.toNat
        ++ (leBytes 4 entry.timestamp.nanos.toNat
          ++ (VarInt.encode (UInt64.ofNat entry.data.length)
            ++ (entry.data ++ entry.checksum.toList)))))

def serializeHeader (journal : JournalManager) : Bytes :=
  VarInt.encode journal.sequence ++ VarInt.encode (UInt64.ofNat journal.entries.length)

def serialize (journal : JournalManager) : Bytes :=
  journal.serializeHeader ++ journal.entries.flatMap serializeEntry

/-- One round of the loop in `deserialize`. Every `break` is the error `journalCorrupt` here, which
the loop drops. The length check adds in `size_t`, so a length near the word size passes it and the
read after it leaves the buffer. -/
def readEntry (data : Bytes) (offset : Nat) :
    Except (Fault ErrorCode) (JournalEntry × Nat) := do
  require (offset < data.length) .journalCorrupt
  let (type, offset) ← readByte data offset
  let (sequence, offset) ← readVarInt .journalCorrupt data offset
  require (offset + 12 ≤ data.length) .journalCorrupt
  let (seconds, offset) ← readRange data offset 8
  let (nanos, offset) ← readRange data offset 4
  let (dataSize, offset) ← readVarInt .journalCorrupt data offset
  require ((offset + dataSize.toNat + 32) % wordSize ≤ data.length) .journalCorrupt
  let (bytes, offset) ← readRange data offset dataSize.toNat
  let (checksum, offset) ← readArr 32 data offset
  return ({ type := .ofByte type
            sequence := sequence
            timestamp :=
              { seconds := (UInt64.ofNat (leValue seconds)).toInt64
                nanos := UInt32.ofNat (leValue nanos) }
            data := bytes
            checksum := checksum }, offset)

def payloadSize (entries : List JournalEntry) : UInt64 :=
  entries.foldl (fun total entry => total + UInt64.ofNat entry.data.length) 0

def deserialize (journal : JournalManager) (data : Bytes) : JournalManager × Status :=
  let journal := journal.clear
  match readVarInt .journalCorrupt data 0 with
  | .error e => (journal, some e)
  | .ok (sequence, offset) =>
      let journal := { journal with sequence := sequence }
      match readVarInt .journalCorrupt data offset with
      | .error e => (journal, some e)
      | .ok (count, offset) =>
          let loop := readMany (readEntry data) count.toNat offset
          let journal :=
            { journal with
              entries := collected loop
              totalJournalSize := payloadSize (collected loop) }
          match loop with
          | .error (_, .outOfBounds) => (journal, some .outOfBounds)
          | _ => (journal, none)

def verifyIntegrity (platform : Platform) (journal : JournalManager) : Bool :=
  journal.entries.all fun entry =>
    entryDigest platform journal.checksum entry = entry.checksum

/-! ### Runs -/

inductive LoggingCall
  | beginCheckpoint (now : Timestamp)
  | endCheckpoint (now : Timestamp)
  | log (entry : JournalEntry)
  | logCreate (id : EntryID) (data : Bytes) (now : Timestamp)
  | logUpdate (id : EntryID) (data : Bytes) (now : Timestamp)
  | logDelete (id : EntryID) (now : Timestamp)
  | logWriteBlock (chunk : ChunkDescriptor) (now : Timestamp)
  | commit (endNow now : Timestamp)
  | abort (now : Timestamp)
deriving DecidableEq

inductive ApiCall
  | logging (call : LoggingCall)
  | recover
  | replayEntry (entry : JournalEntry)
  | clear
  | flush (fsync : Status)
  | deserialize (data : Bytes)

section

variable (platform : Platform)

def step (journal : JournalManager) : LoggingCall → JournalManager × Status
  | .beginCheckpoint now => journal.beginCheckpoint now
  | .endCheckpoint now => journal.endCheckpoint now
  | .log entry => journal.log platform entry
  | .logCreate id data now => journal.logCreate platform id data now
  | .logUpdate id data now => journal.logUpdate platform id data now
  | .logDelete id now => journal.logDelete platform id now
  | .logWriteBlock chunk now => journal.logWriteBlock platform chunk now
  | .commit endNow now => journal.commit endNow now
  | .abort now => journal.abort now

def run (journal : JournalManager) (calls : List LoggingCall) : JournalManager :=
  calls.foldl (fun journal call => (journal.step platform call).1) journal

def apiStep (journal : JournalManager) : ApiCall → JournalManager × Status
  | .logging call => journal.step platform call
  | .recover => journal.recover
  | .replayEntry entry => journal.replayEntry entry
  | .clear => (journal.clear, none)
  | .flush fsync => journal.flush fsync
  | .deserialize data => journal.deserialize data

/-- The journals the class can hold. A call that leaves its buffer has no journal after it. -/
inductive Reachable : JournalManager → Prop
  | new (config : JournalConfig) (fd : Int) : Reachable (new config fd)
  | call {journal : JournalManager} (call : ApiCall) (h : Reachable journal)
      (hdefined : (journal.apiStep platform call).2 ≠ some .outOfBounds) :
      Reachable (journal.apiStep platform call).1

end

end JournalManager

end NebulaFS
