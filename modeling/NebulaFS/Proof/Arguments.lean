import NebulaFS.CommandLine

/-!
# The options a command line can stand for

An argument that is no option is an input file or the path of the archive, and the value of an option is
whatever stands behind it. So `parse` gives every archive path, directory, codec, key and list of files,
as long as they are C strings and no file looks like an option (`exists_parse_iff`).
-/

namespace NebulaFS

open CommandLineHandler

/-- What the options hold of the command line. -/
def CommandLineOptions.strings (options : CommandLineOptions) : List Bytes :=
  [options.archivePath, options.targetDirectory, options.compressionType, options.encryptionKey]
    ++ options.inputFiles

/-- The options that some command line stands for. -/
structure Parsable (options : CommandLineOptions) : Prop where
  recursive : options.recursive = true
  terminated : ∀ string ∈ options.strings, 0 ∉ string
  named : ∀ file ∈ options.inputFiles, file ≠ [] ∧ file.head? ≠ (text "-").head?
  bare : options.command = .help ∨ options.command = .unknown →
    options = { command := options.command }

/-- What every argument keeps. -/
structure Taken (command : CommandType) (options : CommandLineOptions) : Prop where
  command : options.command = command
  recursive : options.recursive = true
  terminated : ∀ string ∈ options.strings, 0 ∉ string
  named : ∀ file ∈ options.inputFiles, file ≠ [] ∧ file.head? ≠ (text "-").head?

section

variable {command : CommandType} {options : CommandLineOptions}

theorem terminated_iff : (∀ string ∈ options.strings, 0 ∉ string)
    ↔ 0 ∉ options.archivePath ∧ 0 ∉ options.targetDirectory ∧ 0 ∉ options.compressionType
      ∧ 0 ∉ options.encryptionKey ∧ ∀ file ∈ options.inputFiles, 0 ∉ file := by
  simp only [CommandLineOptions.strings, List.cons_append, List.nil_append, List.forall_mem_cons]

/-- The codec that is set where no argument sets one is a string like the others. -/
theorem terminated_default (command : CommandType) :
    ∀ string ∈ CommandLineOptions.strings { command := command }, 0 ∉ string := by
  rw [terminated_iff]
  have hcodec : 0 ∉ text "lz4" := by decide +kernel
  exact ⟨List.not_mem_nil, List.not_mem_nil, hcodec, List.not_mem_nil, by simp⟩

theorem Taken.takeArgument (h : Taken command options) {arg : Bytes} (harg : 0 ∉ arg) :
    Taken command (takeArgument options arg) := by
  obtain ⟨hpath, hdir, hcodec, hkey, hfiles⟩ := terminated_iff.mp h.terminated
  unfold CommandLineHandler.takeArgument
  split
  · exact ⟨h.command, h.recursive, h.terminated, h.named⟩
  split
  · exact ⟨h.command, h.recursive, h.terminated, h.named⟩
  split
  · next hnamed =>
      split
      · exact ⟨h.command, h.recursive, terminated_iff.mpr ⟨harg, hdir, hcodec, hkey, hfiles⟩,
          h.named⟩
      · refine ⟨h.command, h.recursive,
          terminated_iff.mpr ⟨hpath, hdir, hcodec, hkey, fun file hfile => ?_⟩, fun file hfile => ?_⟩
        · rcases List.mem_append.mp hfile with hfile | hfile
          · exact hfiles file hfile
          · exact List.mem_singleton.mp hfile ▸ harg
        · rcases List.mem_append.mp hfile with hfile | hfile
          · exact h.named file hfile
          · exact List.mem_singleton.mp hfile ▸ hnamed
  · exact h

theorem Taken.takeValue (h : Taken command options) {arg value : Bytes} (harg : 0 ∉ value)
    {after : CommandLineOptions} (hvalue : takeValue options arg value = some after) :
    Taken command after := by
  obtain ⟨hpath, hdir, hcodec, hkey, hfiles⟩ := terminated_iff.mp h.terminated
  unfold CommandLineHandler.takeValue at hvalue
  split at hvalue
  · cases hvalue
    exact ⟨h.command, h.recursive, terminated_iff.mpr ⟨harg, hdir, hcodec, hkey, hfiles⟩, h.named⟩
  split at hvalue
  · cases hvalue
    exact ⟨h.command, h.recursive, terminated_iff.mpr ⟨hpath, harg, hcodec, hkey, hfiles⟩, h.named⟩
  split at hvalue
  · cases hvalue
    exact ⟨h.command, h.recursive, terminated_iff.mpr ⟨hpath, hdir, harg, hkey, hfiles⟩, h.named⟩
  split at hvalue
  · cases hvalue
    exact ⟨h.command, h.recursive, terminated_iff.mpr ⟨hpath, hdir, hcodec, harg, hfiles⟩, h.named⟩
  · cases hvalue

theorem Taken.takeArguments (h : Taken command options) {args : List Bytes}
    (hargs : ∀ arg ∈ args, 0 ∉ arg) : Taken command (takeArguments options args) := by
  induction options, args using takeArguments.induct with
  | case1 options => exact h
  | case2 options arg => exact h.takeArgument (hargs arg List.mem_cons_self)
  | case3 options arg value args after hvalue ih =>
      obtain ⟨-, hargValue, hrest⟩ : 0 ∉ arg ∧ 0 ∉ value ∧ ∀ arg ∈ args, 0 ∉ arg := by
        simpa only [List.forall_mem_cons] using hargs
      rw [CommandLineHandler.takeArguments, hvalue]
      exact ih (h.takeValue hargValue hvalue) hrest
  | case4 options arg value args hnone ih =>
      rw [CommandLineHandler.takeArguments, hnone]
      exact ih (h.takeArgument (hargs arg List.mem_cons_self))
        fun other hother => hargs other (List.mem_cons_of_mem _ hother)

theorem parsable_parse (argv : List CString) : Parsable (parse argv) := by
  have hargv : ∀ arg ∈ argv.map Subtype.val, 0 ∉ arg := by
    intro arg harg
    obtain ⟨string, -, rfl⟩ := List.mem_map.mp harg
    exact string.property
  unfold parse
  split
  · next name cmd args heq =>
      rw [heq] at hargv
      simp only
      split
      · exact ⟨rfl, terminated_default _, by simp, fun _ => rfl⟩
      · next hcommand =>
          have htaken : Taken (commandOf cmd) { command := commandOf cmd } :=
            ⟨rfl, rfl, terminated_default _, by simp⟩
          obtain ⟨hsame, hrecursive, hterminated, hnamed⟩ := htaken.takeArguments
            fun arg harg => hargv arg (List.mem_cons_of_mem _ (List.mem_cons_of_mem _ harg))
          exact ⟨hrecursive, hterminated, hnamed, fun h => (hcommand (hsame ▸ h)).elim⟩
  · exact ⟨rfl, terminated_default _, by simp, fun _ => rfl⟩

/-! ### A command line for given options -/

def wordOf : CommandType → Bytes
  | .create => text "create"
  | .extract => text "extract"
  | .list => text "list"
  | .verify => text "verify"
  | .repair => text "repair"
  | .benchmark => text "benchmark"
  | .inspect => text "inspect"
  | .help => text "help"
  | .unknown => []

theorem commandOf_wordOf (command : CommandType) :
    commandOf (wordOf command) = command ∧ 0 ∉ wordOf command := by
  cases command <;> decide +kernel

/-- The names of options, the last ones that are looked for first. -/
def optionNames : List Bytes :=
  [text "--no-checksum", text "--verbose", text "-k", text "--key", text "-c", text "--compress",
    text "-d", text "--dir", text "--dest", text "-a", text "--archive"]

theorem optionNames_apart : optionNames.Nodup
    ∧ ∀ name ∈ optionNames, name.head? = (text "-").head? ∧ 0 ∉ name := by
  decide +kernel

/-- An archive path stands first, so that every name behind it is that of a file. -/
def argumentsOf (options : CommandLineOptions) : List Bytes :=
  [text "-a", [0x3F]] ++ options.inputFiles
    ++ [text "-a", options.archivePath, text "-d", options.targetDirectory, text "-c",
      options.compressionType, text "-k", options.encryptionKey]
    ++ (if options.verbose then [text "--verbose"] else [])
    ++ (if options.calculateChecksums then [] else [text "--no-checksum"])

theorem ne_of_head {file : Bytes} (hfile : file.head? ≠ (text "-").head?) {word : Bytes}
    (hword : word.head? = (text "-").head?) : file ≠ word := by
  rintro rfl
  exact hfile hword

theorem takeArguments_file {file : Bytes} {rest : List Bytes} (hpath : options.archivePath ≠ [])
    (hnamed : file ≠ [] ∧ file.head? ≠ (text "-").head?) :
    takeArguments options (file :: rest)
      = takeArguments { options with inputFiles := options.inputFiles ++ [file] } rest := by
  have hword : ∀ name ∈ optionNames, file ≠ name := fun name hname =>
    ne_of_head hnamed.2 (optionNames_apart.2 name hname).1
  simp only [optionNames, List.forall_mem_cons] at hword
  obtain ⟨hsums, hverbose, hk, hkey, hc, hcompress, hd, hdir, hdest, ha, harchive, -⟩ := hword
  have hone : takeArgument options file
      = { options with inputFiles := options.inputFiles ++ [file] } := by
    rw [takeArgument, if_neg hverbose, if_neg hsums, if_pos hnamed, if_neg fun h => hpath h.1]
  cases rest with
  | nil => exact hone
  | cons value rest =>
      have hnone : takeValue options file value = none := by
        rw [takeValue, if_neg (not_or.mpr ⟨ha, harchive⟩),
          if_neg (not_or.mpr ⟨hd, not_or.mpr ⟨hdir, hdest⟩⟩), if_neg (not_or.mpr ⟨hc, hcompress⟩),
          if_neg (not_or.mpr ⟨hk, hkey⟩)]
      rw [takeArguments, hnone]
      exact congrArg (takeArguments · (value :: rest)) hone

theorem takeArguments_files {files rest : List Bytes} (hpath : options.archivePath ≠ [])
    (hnamed : ∀ file ∈ files, file ≠ [] ∧ file.head? ≠ (text "-").head?) :
    takeArguments options (files ++ rest)
      = takeArguments { options with inputFiles := options.inputFiles ++ files } rest := by
  induction files generalizing options with
  | nil => rw [List.nil_append, List.append_nil]
  | cons file files ih =>
      have hlater := @ih { options with inputFiles := options.inputFiles ++ [file] } hpath
        fun other hother => hnamed other (List.mem_cons_of_mem _ hother)
      rw [List.cons_append, takeArguments_file hpath (hnamed file List.mem_cons_self), hlater,
        List.append_assoc]
      rfl

theorem takeArguments_value {arg value : Bytes} {after : CommandLineOptions} {rest : List Bytes}
    (hvalue : takeValue options arg value = some after) :
    takeArguments options (arg :: value :: rest) = takeArguments after rest := by
  rw [takeArguments, hvalue]

/-- No name that is looked for earlier is taken for a later one. -/
theorem takeValue_name (options : CommandLineOptions) (value : Bytes) :
    takeValue options (text "-a") value = some { options with archivePath := value }
      ∧ takeValue options (text "-d") value = some { options with targetDirectory := value }
      ∧ takeValue options (text "-c") value = some { options with compressionType := value }
      ∧ takeValue options (text "-k") value = some { options with encryptionKey := value }
      ∧ takeValue options (text "--verbose") value = none := by
  have hapart := optionNames_apart.1
  simp only [optionNames, List.nodup_cons, List.mem_cons, List.not_mem_nil, not_or] at hapart
  simp [takeValue, hapart]

theorem takeArguments_flags (options : CommandLineOptions) (verbose sums : Bool) :
    takeArguments options ((if verbose then [text "--verbose"] else [])
        ++ (if sums then [] else [text "--no-checksum"]))
      = { options with
          verbose := options.verbose || verbose
          calculateChecksums := options.calculateChecksums && sums } := by
  have hverbose : takeArgument options (text "--verbose") = { options with verbose := true } :=
    if_pos rfl
  have hsums (options : CommandLineOptions) : takeArgument options (text "--no-checksum")
      = { options with calculateChecksums := false } := by
    have hne : text "--no-checksum" ≠ text "--verbose" :=
      List.ne_of_not_mem_cons (List.nodup_cons.mp optionNames_apart.1).1
    rw [takeArgument, if_neg hne, if_pos rfl]
  have hnone : takeValue options (text "--verbose") (text "--no-checksum") = none :=
    (takeValue_name options _).2.2.2.2
  cases verbose with
  | false =>
      cases sums with
      | false => simpa [takeArguments] using hsums options
      | true => simp [takeArguments]
  | true =>
      cases sums with
      | false => simpa [takeArguments, hnone, hverbose] using hsums _
      | true => simpa [takeArguments] using hverbose

theorem terminated_argumentsOf (h : ∀ string ∈ options.strings, 0 ∉ string) :
    ∀ arg ∈ argumentsOf options, 0 ∉ arg := by
  obtain ⟨hpath, hdir, hcodec, hkey, hfiles⟩ := terminated_iff.mp h
  have hword : ∀ name ∈ optionNames, 0 ∉ name := fun name hname =>
    (optionNames_apart.2 name hname).2
  simp only [optionNames, List.forall_mem_cons] at hword
  obtain ⟨hsums, hverbose, hk, -, hc, -, hd, -, -, ha, -, -⟩ := hword
  intro arg harg
  simp only [argumentsOf, List.mem_append, List.mem_cons, List.not_mem_nil, or_false] at harg
  rcases harg with ((((rfl | rfl) | hfile) | (rfl | rfl | rfl | rfl | rfl | rfl | rfl | rfl)) | hflag)
    | hflag
  · exact ha
  · simp
  · exact hfiles arg hfile
  · exact ha
  · exact hpath
  · exact hd
  · exact hdir
  · exact hc
  · exact hcodec
  · exact hk
  · exact hkey
  · split at hflag
    · exact List.mem_singleton.mp hflag ▸ hverbose
    · cases hflag
  · split at hflag
    · cases hflag
    · exact List.mem_singleton.mp hflag ▸ hsums

/-- Any list of strings is what the program may be started with. -/
theorem exists_argv_of_terminated {args : List Bytes} (hargs : ∀ arg ∈ args, 0 ∉ arg) :
    ∃ argv : List CString, argv.map Subtype.val = args := by
  exact ⟨args.attachWith (0 ∉ ·) hargs, List.attachWith_map_subtype_val hargs⟩

/-- **What the arguments can say.** -/
theorem exists_parse_iff (options : CommandLineOptions) :
    (∃ argv : List CString, parse argv = options) ↔ Parsable options := by
  constructor
  · rintro ⟨argv, rfl⟩
    exact parsable_parse argv
  · intro h
    obtain ⟨hcommand, hword⟩ := commandOf_wordOf options.command
    by_cases hbare : options.command = .help ∨ options.command = .unknown
    · obtain ⟨argv, hargv⟩ : ∃ argv : List CString,
          argv.map Subtype.val = [[], wordOf options.command] :=
        exists_argv_of_terminated (by simp [hword])
      refine ⟨argv, ?_⟩
      rw [parse, hargv]
      simp only [hcommand, if_pos hbare]
      exact (h.bare hbare).symm
    · obtain ⟨argv, hargv⟩ : ∃ argv : List CString,
          argv.map Subtype.val = [] :: wordOf options.command :: argumentsOf options :=
        exists_argv_of_terminated (by
          simp only [List.forall_mem_cons]
          exact ⟨List.not_mem_nil, hword, terminated_argumentsOf h.terminated⟩)
      refine ⟨argv, ?_⟩
      rw [parse, hargv]
      simp only [hcommand, if_neg hbare, argumentsOf]
      simp only [List.cons_append, List.nil_append, List.append_assoc]
      have hplaced : ({ command := options.command, archivePath := [0x3F] } :
          CommandLineOptions).archivePath ≠ [] := List.cons_ne_nil _ _
      rw [takeArguments_value (takeValue_name _ _).1, takeArguments_files hplaced h.named,
        takeArguments_value (takeValue_name _ _).1, takeArguments_value (takeValue_name _ _).2.1,
        takeArguments_value (takeValue_name _ _).2.2.1,
        takeArguments_value (takeValue_name _ _).2.2.2.1, takeArguments_flags]
      have hrecursive := h.recursive
      cases options
      cases hrecursive
      simp

end

end NebulaFS
