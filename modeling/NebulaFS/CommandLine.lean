import NebulaFS.ArchiveReader
import NebulaFS.ArchiveWriter

/-!
# The command line

`cli/CommandLine.cpp`: the arguments, and the commands `create`, `extract`, `list`, `verify` and
`repair`. What a command finds outside of its archive is an argument of it: the files and directories
under the paths it is given, the device the archive is made on, the clock, and what becomes of the files
it writes. `verify` opens the archive with a reader that checks sums when it extracts, and reports that
all blocks and checksums are valid if it could be opened.
-/

namespace NebulaFS

def text (word : String) : Bytes := word.toUTF8.toList

/-- The bytes of a C string in front of the zero that ends it. -/
abbrev CString := { bytes : Bytes // 0 ∉ bytes }

inductive CommandType
  | create
  | extract
  | list
  | verify
  | repair
  | benchmark
  | inspect
  | help
  | unknown
deriving DecidableEq

/-- Nothing sets `recursive`. -/
structure CommandLineOptions where
  command : CommandType := .unknown
  archivePath : Bytes := []
  targetDirectory : Bytes := []
  inputFiles : List Bytes := []
  verbose : Bool := false
  recursive : Bool := true
  calculateChecksums : Bool := true
  compressionType : Bytes := text "lz4"
  encryptionKey : Bytes := []
deriving DecidableEq

structure CommandResult where
  exitCode : Int := 0
  message : String := ""
  processedCount : UInt64 := 0
  processedBytes : UInt64 := 0
  success : Bool := true
deriving DecidableEq

/-- A regular file as `create` meets it: its size, what a stream reads of it if it opens, and the
surroundings it is added in. -/
structure HostFile where
  path : Bytes
  size : UInt64
  content : Option Bytes
  around : Surroundings := .plain

/-- What a path of the command line is. Of a directory, the regular files that
`recursive_directory_iterator` comes to, in its order. -/
inductive HostNode
  | regular (file : HostFile)
  | directory (files : List HostFile)
  | other

/-- The machine of `create`: its files, the device of the archive, and the clock, once more for the
destructor of the writer. -/
structure Host where
  node : Bytes → HostNode
  device : Device
  openNow : Timestamp := {}
  times : ArchiveWriter.CloseTimes := {}
  lastTimes : ArchiveWriter.CloseTimes := {}

namespace CommandLineHandler

/-! ### Arguments -/

def commandOf (cmd : Bytes) : CommandType :=
  if cmd = text "create" ∨ cmd = text "-c" then .create
  else if cmd = text "extract" ∨ cmd = text "-x" then .extract
  else if cmd = text "list" ∨ cmd = text "-l" then .list
  else if cmd = text "verify" ∨ cmd = text "-v" then .verify
  else if cmd = text "repair" ∨ cmd = text "-r" then .repair
  else if cmd = text "benchmark" ∨ cmd = text "-b" then .benchmark
  else if cmd = text "inspect" ∨ cmd = text "dashboard" ∨ cmd = text "-i" then .inspect
  else if cmd = text "help" ∨ cmd = text "--help" ∨ cmd = text "-h" then .help
  else .unknown

/-- What an option sets that takes the argument behind it, if `arg` is one. -/
def takeValue (opts : CommandLineOptions) (arg value : Bytes) : Option CommandLineOptions :=
  if arg = text "-a" ∨ arg = text "--archive" then some { opts with archivePath := value }
  else if arg = text "-d" ∨ arg = text "--dir" ∨ arg = text "--dest" then
    some { opts with targetDirectory := value }
  else if arg = text "-c" ∨ arg = text "--compress" then some { opts with compressionType := value }
  else if arg = text "-k" ∨ arg = text "--key" then some { opts with encryptionKey := value }
  else none

/-- An argument by itself. An option that is not known, or has no value behind it, is passed over. -/
def takeArgument (opts : CommandLineOptions) (arg : Bytes) : CommandLineOptions :=
  if arg = text "--verbose" then { opts with verbose := true }
  else if arg = text "--no-checksum" then { opts with calculateChecksums := false }
  else if arg ≠ [] ∧ arg.head? ≠ (text "-").head? then
    if opts.archivePath = [] ∧ opts.command ≠ .create then { opts with archivePath := arg }
    else { opts with inputFiles := opts.inputFiles ++ [arg] }
  else opts

def takeArguments (opts : CommandLineOptions) : List Bytes → CommandLineOptions
  | [] => opts
  | [arg] => takeArgument opts arg
  | arg :: value :: args =>
      match takeValue opts arg value with
      | some opts => takeArguments opts args
      | none => takeArguments (takeArgument opts arg) (value :: args)

def parse (argv : List CString) : CommandLineOptions :=
  match argv.map Subtype.val with
  | _ :: cmd :: args =>
      let command := commandOf cmd
      if command = .help ∨ command = .unknown then { command := command }
      else takeArguments { command := command } args
  | _ => { command := .help }

/-! ### Create -/

/-- A command that ends with an error of the library. -/
def failure (exitCode : Int) (message : String) :
    Fault ErrorCode → Except (Fault ErrorCode) CommandResult
  | .returned err =>
      .ok { exitCode := exitCode, message := message ++ err.message, success := false }
  | .outOfBounds => .error .outOfBounds
  | .outOfFuel => .error .outOfFuel

/-- The writer computes sums whatever `enableChecksum` says, and the key is not passed on. -/
def writerConfig (options : CommandLineOptions) : WriterConfig :=
  { compression :=
      if options.compressionType = text "lz4" then .lz4
      else if options.compressionType = text "zstd" then .zstd
      else if options.compressionType = text "zlib" then .zlib
      else .none }

/-- The regular files that `create` comes to. -/
def hostFiles (host : Host) (options : CommandLineOptions) : List HostFile :=
  options.inputFiles.flatMap fun path =>
    match host.node path with
    | .regular file => [file]
    | .directory files => if options.recursive then files else []
    | .other => []

structure Packing where
  writer : ArchiveWriter
  count : UInt64 := 0
  totalBytes : UInt64 := 0

section

variable (platform : Platform)

/-- A file that cannot be added is passed over. -/
def packFile (packing : Packing) (file : HostFile) : Packing :=
  match packing.writer.addFile platform file.around file.content file.path with
  | (writer, some _) => { packing with writer := writer }
  | (writer, none) =>
      { writer := writer
        count := packing.count + 1
        totalBytes := packing.totalBytes + file.size }

/-- The destructor of the writer. -/
def destroy (times : ArchiveWriter.CloseTimes) (writer : ArchiveWriter) : ArchiveWriter :=
  if writer.isOpen ∧ ¬ writer.finalized then (writer.close platform times).1 else writer

/-- `handleCreate`, with what is under the path of the archive in the end if it was opened. -/
def handleCreate (host : Host) (options : CommandLineOptions) :
    Except (Fault ErrorCode) CommandResult × Option Bytes :=
  if options.archivePath = [] then
    (.ok { exitCode := 1
           message := "Error: missing required archive path (-a <path>)"
           success := false }, none)
  else
    match (ArchiveWriter.new platform (writerConfig options) host.device).openArchive host.openNow with
    | (_, some err) => (failure 1 "Error: failed to open archive for writing: " err, none)
    | (writer, none) =>
        let packing := (hostFiles host options).foldl (packFile platform) { writer := writer }
        match packing.writer.close platform host.times with
        | (writer, some (.returned err)) =>
            (.ok { exitCode := 2
                   message := "Error: failed to finalize archive writing: " ++ err.message
                   processedCount := packing.count
                   processedBytes := packing.totalBytes
                   success := false },
              some (destroy platform host.lastTimes writer).file.content)
        | (writer, some .outOfBounds) => (.error .outOfBounds, some writer.file.content)
        | (writer, some .outOfFuel) => (.error .outOfFuel, some writer.file.content)
        | (writer, none) =>
            (.ok { message := "Archive created successfully: "
                     ++ ArchiveReader.messageOf options.archivePath ++ " ("
                     ++ toString packing.count.toNat ++ " entries, "
                     ++ toString packing.totalBytes.toNat ++ " bytes)"
                   processedCount := packing.count
                   processedBytes := packing.totalBytes },
              some writer.file.content)

/-! ### Reading commands -/

def missingPath : Except (Fault ErrorCode) CommandResult :=
  .ok { exitCode := 1, message := "Error: missing archive path", success := false }

def destDir (options : CommandLineOptions) : String :=
  if options.targetDirectory = [] then "." else ArchiveReader.messageOf options.targetDirectory

/-- `handleExtract`, given what becomes of the directory and of the output file of each entry, with the
files it wrote. There is no result where the directory cannot be created: that is an exception. -/
def handleExtract (content : Option Bytes) (creates : Bool) (outputs : Nat → ArchiveReader.Output)
    (options : CommandLineOptions) :
    Option (Except (Fault ErrorCode) CommandResult × List ArchiveReader.Written) :=
  if options.archivePath = [] then some (missingPath, [])
  else
    match ArchiveReader.openArchive platform {} content with
    | (_, some err) => some (failure 2 "Error: failed to open archive: " err, [])
    | (reader, none) =>
        if ¬ creates then none
        else
          match reader.extractAll platform (destDir options) creates outputs with
          | none => none
          | some (some err, written) => some (failure 3 "Error extracting archive: " err, written)
          | some (none, written) =>
              some (.ok { message := "Extracted " ++ toString reader.entryCount.toNat
                            ++ " files to " ++ destDir options
                          processedCount := reader.entryCount }, written)

end

/-- `handleVerify`, given the content of the file under the path if there is one that can be read. It
has no result where the parser leaves its buffer. -/
def handleVerify (platform : Platform) (archivePath : Bytes) (content : Option Bytes) :
    Except (Fault ErrorCode) CommandResult :=
  if archivePath = [] then
    .ok { exitCode := 1, message := "Error: missing archive path", success := false }
  else
    match ArchiveReader.openArchive platform { config := { verifyChecksums := true } } content with
    | (_, some (.returned err)) =>
        .ok { exitCode := 2
              message := "Integrity Check FAILED: cannot open archive: " ++ err.message
              success := false }
    | (_, some .outOfBounds) => .error .outOfBounds
    | (_, some .outOfFuel) => .error .outOfFuel
    | (reader, none) =>
        .ok { message := "Integrity Check PASSED: all blocks and checksums valid"
              processedCount := reader.entryCount }

end CommandLineHandler

end NebulaFS
