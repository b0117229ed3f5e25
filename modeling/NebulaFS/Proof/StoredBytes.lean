import NebulaFS.Proof.WriterRuns

/-!
# The bytes stored for an entry

What `processAndWriteEntry` writes for an entry is its data after two steps, and a step that fails is
left out. So an add under encryption stores ciphertext only while every call of OpenSSL succeeds; the
engine has a context for AES-256-GCM alone, and without one the data is stored as it is and the add
succeeds (`protected_iff`).
-/

namespace NebulaFS

open Cursor SparseFile ArchiveHeader DirectoryTree

namespace ArchiveWriter

variable {platform : Platform} {writer : ArchiveWriter}

/-! ### One add -/

theorem step_cases (hopen : writer.isOpen = true) {call : Call} {around : Surroundings}
    {data : Bytes} (hcall : call.payload = some (around, data)) :
    ((writer.step platform call).2 ≠ none
      ∧ (writer.step platform call).1.directoryTree = writer.directoryTree
      ∧ (writer.step platform call).1.indexManager = writer.indexManager
      ∧ (writer.step platform call).1.entryCount = writer.entryCount
      ∧ ((writer.file.write (writer.processedData platform around.evp data)).good = false
        ∨ ¬ ValidPath call.path))
    ∨ ((writer.step platform call).2 = none
      ∧ (writer.step platform call).1.file.writes = writer.file.writes
        ++ [⟨writer.file.pos, writer.processedData platform around.evp data⟩]
      ∧ (writer.file.write (writer.processedData platform around.evp data)).good = true
      ∧ ValidPath call.path) := by
  obtain ⟨entry, -, -, hpath, hstep, -⟩ := step_of_payload platform hopen hcall
  have hvalid := insert_ok_iff writer.directoryTree
    (writer.completeEntry platform around.evp data entry)
  change _ ↔ ValidPath entry.path at hvalid
  rw [hpath] at hvalid
  rw [hstep]
  rcases processAndWriteEntry_cases platform writer around data entry with
    ⟨hwrite, heq⟩ | ⟨hwrite, e, hinsert, heq⟩ | ⟨hwrite, hinsert, heq⟩
  · rw [heq]
    exact .inl ⟨Option.some_ne_none _, rfl, rfl, rfl, .inl hwrite⟩
  · rw [heq]
    refine .inl ⟨Option.some_ne_none e, rfl, rfl, rfl, .inr fun hpathValid => ?_⟩
    rw [hvalid.mpr hpathValid] at hinsert
    cases hinsert
  · rw [heq]
    refine .inr ⟨rfl, ?_, hwrite, hvalid.mp hinsert⟩
    change (writer.file.write _).writes = _
    rw [(OFStream.write_of_good hwrite).2.2]

theorem step_config (hopen : writer.isOpen = true) {call : Call} (hcall : call.payload.isSome) :
    (writer.step platform call).1.config = writer.config := by
  obtain ⟨payload, hpayload⟩ := Option.isSome_iff_exists.mp hcall
  obtain ⟨entry, -, -, -, hstep, -⟩ := step_of_payload platform hopen hpayload
  rw [hstep]
  rcases processAndWriteEntry_cases platform writer payload.1 payload.2 entry with
    ⟨-, heq⟩ | ⟨-, e, -, heq⟩ | ⟨-, -, heq⟩
  · rw [heq]
  · rw [heq]
    rfl
  · rw [heq]
    rfl

theorem addDirectory_ok_iff (platform : Platform) (hopen : writer.isOpen = true)
    (around : Surroundings) (path : Bytes) (perms : Permissions) :
    (writer.addDirectory platform around path perms).2 = none ↔ ValidPath path := by
  have hinsert := insert_ok_iff writer.directoryTree (writer.directoryEntry path perms around.now)
  change _ ↔ ValidPath path at hinsert
  rw [← hinsert, addDirectory, if_neg (not_not.mpr hopen)]
  simp only
  rcases writer.directoryTree.insert (writer.directoryEntry path perms around.now) with ⟨tree, _ | e⟩
  · exact Iff.rfl
  · exact Iff.rfl

theorem succeeds_of_good {calls : List Call} (hopen : writer.isOpen = true)
    (hcalls : ∀ call ∈ calls, call.payload.isSome = true ∧ ValidPath call.path)
    (hgood : (writer.run platform calls).file.good = true) :
    writer.Along platform (Succeeds platform) calls := by
  induction calls generalizing writer with
  | nil => trivial
  | cons call calls ih =>
      rw [run_cons] at hgood
      have hafter := (sameSetup_step platform writer call).isOpen.trans hopen
      obtain ⟨hdata, hpath⟩ := hcalls call (by simp)
      obtain ⟨payload, hpayload⟩ := Option.isSome_iff_exists.mp hdata
      refine ⟨?_, ih hafter (fun other hother => hcalls other (by simp [hother])) hgood⟩
      rcases step_cases hopen hpayload with ⟨-, -, -, -, hwrite | hinvalid⟩ | ⟨hok, -⟩
      · have hstep := good_of_run_good hafter hgood
        rw [step_file platform hopen, hpayload] at hstep
        rw [hstep] at hwrite
        cases hwrite
      · exact absurd hpath hinvalid
      · exact hok

/-! ### Adds under encryption -/

/-- What an add of data may do under encryption: return an error and add no entry, or write what
`encrypt` successfully made of the possibly compressed data. -/
def Protected (platform : Platform) (writer : ArchiveWriter) (call : Call) : Prop :=
  ∀ around data, call.payload = some (around, data) → data ≠ [] →
    ((writer.step platform call).2 ≠ none
      ∧ (writer.step platform call).1.directoryTree = writer.directoryTree
      ∧ (writer.step platform call).1.indexManager = writer.indexManager
      ∧ (writer.step platform call).1.entryCount = writer.entryCount)
    ∨ ∃ engine result, writer.encryption = some engine
      ∧ result = engine.encrypt platform around.evp (writer.compressStage platform data).1
      ∧ result.success = true
      ∧ (writer.step platform call).1.file.writes
        = writer.file.writes ++ [⟨writer.file.pos, result.data⟩]

/-- The path or the write of the unencrypted data is refused, or the data can be encrypted: in the
OpenSSL build, with AES-256-GCM, a context and no failing call. -/
def Encryptable (platform : Platform) (config : WriterConfig) (ctxNew : Bool)
    (writer : ArchiveWriter) (call : Call) : Prop :=
  ∀ around data, call.payload = some (around, data) → data ≠ [] →
    ¬ ValidPath call.path
    ∨ (writer.file.write (writer.compressStage platform data).1).good = false
    ∨ (platform.hasOpenssl = true ∧ config.encryption = .aes256gcm ∧ ctxNew = true
      ∧ ∀ engine ∈ writer.encryption, EncryptionEngine.EvpSucceeds around.evp engine.config.key
        (writer.compressStage platform data).1)

structure Ciphered (platform : Platform) (config : WriterConfig) (ctxNew : Bool)
    (writer : ArchiveWriter) : Prop where
  isOpen : writer.isOpen = true
  encryption : writer.config.encryption = config.encryption
  engine : writer.encryption.map (fun engine => (engine.ctx, engine.config.algorithm))
    = some (platform.hasOpenssl && config.encryption = .aes256gcm && ctxNew, config.encryption)

theorem Ciphered.step {config : WriterConfig} {ctxNew : Bool}
    (h : Ciphered platform config ctxNew writer) (call : Call) :
    Ciphered platform config ctxNew (writer.step platform call).1 := by
  have hsetup := sameSetup_step platform writer call
  exact ⟨hsetup.isOpen.trans h.isOpen, hsetup.encryption.trans h.encryption,
    hsetup.engine.trans h.engine⟩

/-- Under encryption the stored bytes are those of `encrypt` if it succeeds, and else the data that
was to be encrypted. -/
theorem processedData_of_engine {engine : EncryptionEngine} (hengine : writer.encryption = some engine)
    (hencryption : writer.config.encryption ≠ .none) {data : Bytes} (hdata : data ≠ []) (evp : Evp) :
    writer.processedData platform evp data
      = if (engine.encrypt platform evp (writer.compressStage platform data).1).success
        then (engine.encrypt platform evp (writer.compressStage platform data).1).data
        else (writer.compressStage platform data).1 := by
  rw [processedData, encryptStage, hengine]
  simp only
  rw [if_pos ⟨hencryption, hdata⟩]

theorem encrypt_success_iff_ready {config : WriterConfig} {ctxNew : Bool} {engine : EncryptionEngine}
    (hencryption : config.encryption ≠ .none) (hengine : writer.encryption = some engine)
    (hctx : engine.ctx = (platform.hasOpenssl && config.encryption = .aes256gcm && ctxNew))
    (halgorithm : engine.config.algorithm = config.encryption) (evp : Evp) (data : Bytes) :
    (platform.hasOpenssl = true ∧ config.encryption = .aes256gcm ∧ ctxNew = true
      ∧ ∀ engine ∈ writer.encryption, EncryptionEngine.EvpSucceeds evp engine.config.key data)
    ↔ (engine.encrypt platform evp data).success := by
  rw [EncryptionEngine.encrypt_success_iff platform (halgorithm ▸ hencryption), hctx, hengine]
  simp only [Bool.and_eq_true, decide_eq_true_eq, Option.mem_def, Option.some.injEq, forall_eq']
  tauto

theorem protected_iff {config : WriterConfig} {ctxNew : Bool} (hencryption : config.encryption ≠ .none)
    (h : Ciphered platform config ctxNew writer) (call : Call) :
    Protected platform writer call ↔ Encryptable platform config ctxNew writer call := by
  obtain ⟨engine, hengine, hsetup⟩ := Option.map_eq_some_iff.mp h.engine
  obtain ⟨hctx, halgorithm⟩ := Prod.mk.inj hsetup
  have hconfig : writer.config.encryption ≠ .none := h.encryption ▸ hencryption
  refine forall_congr' fun around => forall_congr' fun data => forall_congr' fun hcall =>
    forall_congr' fun hdata => ?_
  have hstored : writer.processedData platform around.evp data = _ :=
    processedData_of_engine hengine hconfig hdata around.evp
  have hready := encrypt_success_iff_ready hencryption hengine hctx halgorithm around.evp
    (writer.compressStage platform data).1
  rw [hready]
  by_cases hsuccess : (engine.encrypt platform around.evp
      (writer.compressStage platform data).1).success = true
  · refine iff_of_true ?_ (.inr (.inr hsuccess))
    rcases step_cases h.isOpen hcall with ⟨hfailed, htree, hindex, hcount, -⟩ | ⟨-, hwrites, -⟩
    · exact .inl ⟨hfailed, htree, hindex, hcount⟩
    · rw [hstored, if_pos hsuccess] at hwrites
      exact .inr ⟨engine, _, hengine, rfl, hsuccess, hwrites⟩
  · -- the data is stored unencrypted, so the add has to be refused
    rw [if_neg hsuccess] at hstored
    constructor
    · rintro (⟨hfailed, -⟩ | ⟨other, result, hother, rfl, hresult, -⟩)
      · rcases step_cases h.isOpen hcall with ⟨-, -, -, -, hwrite | hpath⟩ | ⟨hok, -⟩
        · rw [hstored] at hwrite
          exact .inr (.inl hwrite)
        · exact .inl hpath
        · exact absurd hok hfailed
      · obtain rfl := Option.some.inj (hengine.symm.trans hother)
        exact absurd hresult hsuccess
    · intro hrefused
      rcases step_cases h.isOpen hcall with
        ⟨hfailed, htree, hindex, hcount, -⟩ | ⟨-, -, hgood, hvalid⟩
      · exact .inl ⟨hfailed, htree, hindex, hcount⟩
      · rw [hstored] at hgood
        rcases hrefused with hpath | hwrite | hencrypted
        · exact absurd hvalid hpath
        · rw [hgood] at hwrite
          cases hwrite
        · exact absurd hencrypted hsuccess

end ArchiveWriter

namespace Session

open ArchiveWriter

variable {platform : Platform} {session : Session}

theorem opened_ciphered (hencryption : session.config.encryption ≠ .none)
    (hopened : (session.opened platform).2 = none) :
    Ciphered platform session.config session.ctxNew (session.opened platform).1 := by
  have hopen := justOpened hopened
  have hsetup := sameSetup_configured platform session
  refine ⟨hopen.isOpen, ?_, ?_⟩
  · rw [hopen.config]
    exact hsetup.encryption
  · rw [hopen.encryption, hsetup.engine]
    simp [new, hencryption, EncryptionEngine.new]

/-- **No plaintext under encryption, exactly when.** In a session with encryption every add of data is
refused or stores what `encrypt` made of it, if and only if every add of data is refused or can be
encrypted. -/
theorem protected_along_iff (hencryption : session.config.encryption ≠ .none)
    (hopened : (session.opened platform).2 = none) :
    (session.opened platform).1.Along platform (Protected platform) session.calls
      ↔ (session.opened platform).1.Along platform
        (Encryptable platform session.config session.ctxNew) session.calls := by
  have hstep : ∀ writer call, Ciphered platform session.config session.ctxNew writer →
      Ciphered platform session.config session.ctxNew (writer.step platform call).1 :=
    fun _ call h => h.step call
  have hagree : ∀ writer call, Ciphered platform session.config session.ctxNew writer →
      (Protected platform writer call
        ↔ Encryptable platform session.config session.ctxNew writer call) :=
    fun _ call h => protected_iff hencryption h call
  exact along_congr hstep hagree (opened_ciphered hencryption hopened) session.calls

def chachaBlob : Session where
  config := { compression := .none, encryption := .chaCha20Poly }
  device := .ample
  calls := [.addBlob .plain [0x61, 0x62, 0x63] [0x61] 0]

theorem protected_along_iff_chachaBlob :
    (chachaBlob.opened Platform.reference).1.Along Platform.reference
        (Protected Platform.reference) chachaBlob.calls
      ↔ (chachaBlob.opened Platform.reference).1.Along Platform.reference
        (Encryptable Platform.reference chachaBlob.config true) chachaBlob.calls :=
  protected_along_iff (by decide +kernel) (by decide +kernel)

/-- The add succeeds, and the bytes it writes are the caller's. -/
theorem not_protected_chachaBlob :
    (chachaBlob.opened Platform.reference).2 = none
      ∧ (chachaBlob.opened Platform.reference).1.Along Platform.reference
        (Succeeds Platform.reference) chachaBlob.calls
      ∧ (chachaBlob.filled Platform.reference).file.writes = [⟨headerSize, [0x61, 0x62, 0x63]⟩]
      ∧ ¬ (chachaBlob.opened Platform.reference).1.Along Platform.reference
        (Protected Platform.reference) chachaBlob.calls := by
  have hsucceeds : (chachaBlob.opened Platform.reference).1.Along Platform.reference
      (Succeeds Platform.reference) chachaBlob.calls := by decide +kernel
  have hencrypt : (chachaBlob.opened Platform.reference).1.encryption.map (fun engine =>
      (engine.encrypt Platform.reference Surroundings.plain.evp ((chachaBlob.opened
        Platform.reference).1.compressStage Platform.reference [0x61, 0x62, 0x63]).1).success)
      = some false := by decide +kernel
  refine ⟨by decide +kernel, hsucceeds, by decide +kernel, ?_⟩
  rintro ⟨hprotected, -⟩
  rcases hprotected .plain [0x61, 0x62, 0x63] rfl (by decide) with
    ⟨hfailed, -⟩ | ⟨engine, result, hengine, rfl, hsuccess, -⟩
  · exact hfailed hsucceeds.1
  · rw [hengine, Option.map_some, Option.some.injEq] at hencrypt
    rw [hencrypt] at hsuccess
    cases hsuccess

end Session

end NebulaFS
