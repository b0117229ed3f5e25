import NebulaFS.Journal
import NebulaFS.Lib.TornSequence
import NebulaFS.Proof.VarIntLemmas

/-!
# The journal survives being cut

An entry is read back when it is there as a whole (`readEntry_of_remaining`), and the loop of
`deserialize` stops at an entry that is not (`readEntry_of_torn`), wherever among its fields the
cut falls. `Cursor.readMany_take` turns these two into the statement about the file. The payload
counter is the one thing that is not in the encoding: `deserialize` adds it up again, and
`Reachable.totalJournalSize_eq` says that this gives the counter the journal had.
-/

namespace NebulaFS

open LittleEndian Cursor

namespace JournalManager

variable {data rest piece : Bytes} {offset : Nat}

theorem length_serializeEntry (entry : JournalEntry) :
    (serializeEntry entry).length
      = 1 + (VarInt.encode entry.sequence).length + 12
        + (VarInt.encode (UInt64.ofNat entry.data.length)).length + entry.data.length + 32 := by
  simp only [serializeEntry, List.length_cons, List.length_append, length_leBytes,
    List.Vector.toList_length]
  omega

theorem timestamp_of_leBytes (timestamp : Timestamp) :
    ({ seconds := (UInt64.ofNat (leValue (leBytes 8 timestamp.seconds.toUInt64.toNat))).toInt64
       nanos := UInt32.ofNat (leValue (leBytes 4 timestamp.nanos.toNat)) } : Timestamp)
      = timestamp := by
  simp

theorem readEntry_of_remaining {entry : JournalEntry} (hdata : data.length < 2 ^ 64)
    (h : Remaining data offset (serializeEntry entry ++ rest)) :
    readEntry data offset = .ok (entry, offset + (serializeEntry entry).length) := by
  have hlength := h.length_eq
  rw [List.length_append, length_serializeEntry] at hlength
  have hsize : (UInt64.ofNat entry.data.length).toNat = entry.data.length :=
    toNat_ofNat_of_lt (by omega)
  -- what is ahead after each field
  simp only [serializeEntry, List.cons_append, List.append_assoc] at h
  have h1 := h.advance_one
  have h2 := h1.advance
  have h3 := h2.advance
  have h4 := h3.advance
  have h5 := h4.advance
  have h6 := h5.advance
  simp only [length_leBytes] at h3 h4 h5 h6
  have hseconds := readRange_of_remaining h2
  have hnanos := readRange_of_remaining h3
  rw [length_leBytes] at hseconds hnanos
  have hbytes := readRange_of_remaining h5
  have hchecksum := readArr_of_remaining h6
  rw [readEntry, require, if_pos (by simp; omega), readByte_of_remaining h]
  simp only [bind, Except.bind]
  rw [readVarInt_of_remaining _ h1]
  simp only
  rw [require, if_pos (by simp; omega), hseconds]
  simp only
  rw [hnanos]
  simp only
  rw [readVarInt_of_remaining _ h4]
  simp only
  rw [hsize, require, if_pos (by
    rw [decide_eq_true_eq, wordSize, Nat.mod_eq_of_lt (by omega)]; omega), hbytes]
  simp only
  rw [hchecksum, timestamp_of_leBytes]
  simp only [pure, Except.pure, JournalEntryType.ofByte_toByte, length_serializeEntry]
  congr 2
  omega

/-- The loop breaks on an entry that is not complete. -/
theorem readEntry_of_torn {entry : JournalEntry} (h : Remaining data offset piece)
    (hpre : piece <+: serializeEntry entry) (hshort : piece.length < (serializeEntry entry).length)
    (hlimit : offset + (serializeEntry entry).length < 2 ^ 64) :
    readEntry data offset = .error (.returned .journalCorrupt) := by
  have hlength := h.length_eq
  rw [length_serializeEntry] at hshort hlimit
  have hsize : (UInt64.ofNat entry.data.length).toNat = entry.data.length :=
    toNat_ofNat_of_lt (by omega)
  cases piece with
  | nil =>
      rw [readEntry, require, if_neg (by simp at hlength ⊢; omega)]
      rfl
  | cons type piece =>
      rw [serializeEntry, List.cons_prefix_cons] at hpre
      obtain ⟨-, hpre⟩ := hpre
      have h1 := h.advance_one
      rw [List.length_cons] at hlength hshort
      rw [readEntry, require, if_pos (by simp; omega), readByte_of_remaining h]
      simp only [bind, Except.bind]
      -- the cut is in the sequence number, or behind it
      rcases prefix_append_cases hpre with ⟨hcutPre, hcut⟩ | ⟨behind, rfl, hbehind⟩
      · rw [readVarInt_of_torn _ h1 hcutPre hcut]
      rw [readVarInt_of_remaining _ h1]
      have h2 := h1.advance
      have hlength2 := h2.length_eq
      rw [List.length_append] at hshort
      simp only
      -- the timestamp is there as a whole, or the loop breaks
      by_cases hstamp : behind.length < 12
      · rw [require, if_neg (by simp; omega)]
      rw [← List.append_assoc (leBytes 8 _)] at hbehind
      rcases prefix_append_cases hbehind with ⟨-, hcut⟩ | ⟨sized, rfl, hsized⟩
      · simp at hcut
        omega
      rw [List.append_assoc] at h2
      have h3 := h2.advance
      have h4 := h3.advance
      have hseconds := readRange_of_remaining h2
      have hnanos := readRange_of_remaining h3
      simp only [length_leBytes, List.length_append] at hseconds hnanos h4 hshort hlength2
      rw [require, if_pos (by simp; omega), hseconds]
      simp only
      rw [hnanos]
      simp only
      -- the cut is in the data length, or behind it
      rcases prefix_append_cases hsized with ⟨hcutPre, hcut⟩ | ⟨payload, rfl, -⟩
      · rw [readVarInt_of_torn _ h4 hcutPre hcut]
      rw [readVarInt_of_remaining _ h4]
      simp only
      rw [List.length_append] at hshort hlength2
      rw [hsize, require, if_neg]
      rw [decide_eq_true_eq, wordSize, Nat.mod_eq_of_lt (by omega)]
      omega

theorem readMany_readEntry_take {entries : List JournalEntry} {n : Nat}
    (h : Remaining data offset ((entries.flatMap serializeEntry).take n))
    (hlimit : offset + (entries.flatMap serializeEntry).length < 2 ^ 64) :
    collected (readMany (readEntry data) entries.length offset)
        = entries.take (wholeCount serializeEntry entries n)
      ∧ ∀ got e, readMany (readEntry data) entries.length offset = .error (got, e) →
        e = .returned .journalCorrupt := by
  have hdata : data.length < 2 ^ 64 := by
    rw [← h.length_eq, List.length_take]
    omega
  have hwhole : ∀ entry ∈ entries, ∀ pos rest, Remaining data pos (serializeEntry entry ++ rest) →
      readEntry data pos = .ok (id entry, pos + (serializeEntry entry).length) :=
    fun entry _ pos rest hentry => readEntry_of_remaining hdata hentry
  have htorn : ∀ entry ∈ entries, ∀ pos piece, Remaining data pos piece →
      piece <+: serializeEntry entry → piece.length < (serializeEntry entry).length →
      pos + (serializeEntry entry).length ≤ 2 ^ 64 - 1 →
      ∃ e, readEntry data pos = .error e ∧ e = .returned .journalCorrupt :=
    fun entry _ pos piece hpiece hpre hshort hend =>
      ⟨_, readEntry_of_torn hpiece hpre hshort (by omega), rfl⟩
  have hloop := readMany_take hwhole htorn h (by omega)
  rwa [List.map_id] at hloop

/-! ### The payload counter -/

theorem payloadSize_append_singleton (entries : List JournalEntry) (entry : JournalEntry) :
    payloadSize (entries ++ [entry]) = payloadSize entries + UInt64.ofNat entry.data.length := by
  simp [payloadSize]

/-- The counter is what the queue adds up to. -/
def Counted (journal : JournalManager) : Prop :=
  journal.totalJournalSize = payloadSize journal.entries

variable {journal : JournalManager}

theorem Counted.pushMark (h : journal.Counted) (type : JournalEntryType) (now : Timestamp) :
    (journal.pushMark type now).Counted := by
  rw [Counted] at h ⊢
  simp only [JournalManager.pushMark, createEntry, payloadSize_append_singleton, h]
  simp

theorem Counted.log (platform : Platform) (h : journal.Counted) (entry : JournalEntry) :
    (journal.log platform entry).1.Counted := by
  rw [Counted] at h ⊢
  rw [JournalManager.log]
  split
  · exact h
  · simp only [payloadSize_append_singleton, h]

theorem Counted.logNew (platform : Platform) (h : journal.Counted) (type : JournalEntryType)
    (data : Bytes) (now : Timestamp) : (journal.logNew platform type data now).1.Counted := by
  have hcreated : (journal.createEntry type data now).2.Counted := h
  exact hcreated.log platform _

theorem Counted.step (platform : Platform) (h : journal.Counted) (call : LoggingCall) :
    (journal.step platform call).1.Counted := by
  cases call with
  | beginCheckpoint now =>
      rw [JournalManager.step, beginCheckpoint]
      split
      · exact h
      · exact h.pushMark _ now
  | endCheckpoint now =>
      rw [JournalManager.step, endCheckpoint]
      split
      · exact h
      · exact h.pushMark _ now
  | log entry => exact h.log platform entry
  | logCreate id data now => exact h.logNew platform _ _ now
  | logUpdate id data now => exact h.logNew platform _ _ now
  | logDelete id now => exact h.logNew platform _ _ now
  | logWriteBlock chunk now => exact h.logNew platform _ _ now
  | commit endNow now =>
      rw [JournalManager.step, commit]
      split
      · exact Counted.pushMark (h.pushMark .endCheckpoint endNow) .commit now
      · exact h.pushMark .commit now
  | abort now => exact h.pushMark .abort now

theorem Counted.deserialize (journal : JournalManager) (data : Bytes) :
    (journal.deserialize data).1.Counted := by
  rw [JournalManager.deserialize]
  split
  · rfl
  · simp only
    split
    · rfl
    · split <;> rfl

theorem Reachable.counted {platform : Platform} (h : Reachable platform journal) :
    journal.Counted := by
  induction h with
  | new config fd => rfl
  | call call _ _ ih =>
      cases call with
      | logging call => exact ih.step platform call
      | recover => exact ih
      | replayEntry entry =>
          rw [apiStep, replayEntry]
          split <;> exact ih
      | clear => rfl
      | flush fsync => exact ih
      | deserialize data => exact Counted.deserialize _ data

/-! ### The cut file -/

theorem deserialize_take_of_lt (receiver : JournalManager) {n : Nat}
    (hn : n < journal.serializeHeader.length) :
    (receiver.deserialize (journal.serialize.take n)).2 = some (.returned .journalCorrupt) := by
  have htake : journal.serialize.take n <+: journal.serializeHeader := by
    rw [serialize, List.take_append_of_le_length (Nat.le_of_lt hn)]
    exact List.take_prefix n _
  have hlength : (journal.serialize.take n).length < journal.serializeHeader.length := by
    rw [List.length_take]
    omega
  set torn := journal.serialize.take n
  rw [serializeHeader, List.length_append] at hlength
  rw [deserialize]
  rcases prefix_append_cases htake with ⟨hpre, hcut⟩ | ⟨behind, hbehind, hpre⟩
  · rw [readVarInt_of_torn _ (remaining_start torn) hpre hcut]
  · have hstart := remaining_start torn
    nth_rewrite 2 [hbehind] at hstart
    rw [readVarInt_of_remaining _ hstart]
    rw [hbehind, List.length_append] at hlength
    simp only
    rw [readVarInt_of_torn _ hstart.advance hpre (by omega)]

theorem deserialize_take_of_le (receiver : JournalManager)
    (hfits : journal.serialize.length < 2 ^ 64) {n : Nat} (hn : journal.serializeHeader.length ≤ n) :
    receiver.deserialize (journal.serialize.take n)
      = ({ receiver.clear with
            sequence := journal.sequence
            entries := journal.entries.take
              (wholeCount serializeEntry journal.entries (n - journal.serializeHeader.length))
            totalJournalSize := payloadSize (journal.entries.take
              (wholeCount serializeEntry journal.entries (n - journal.serializeHeader.length))) },
          none) := by
  set kept := wholeCount serializeEntry journal.entries (n - journal.serializeHeader.length)
  have htake : journal.serialize.take n = journal.serializeHeader
      ++ (journal.entries.flatMap serializeEntry).take (n - journal.serializeHeader.length) := by
    rw [serialize, List.take_append, List.take_of_length_le hn]
  have hlength : journal.serialize.length
      = journal.serializeHeader.length + (journal.entries.flatMap serializeEntry).length := by
    rw [serialize, List.length_append]
  have hcount : (UInt64.ofNat journal.entries.length).toNat = journal.entries.length := by
    have hleast : ∀ entry ∈ journal.entries, 1 ≤ (serializeEntry entry).length := by
      intro entry _
      rw [length_serializeEntry]
      omega
    have := length_mul_le_length_flatMap hleast
    exact toNat_ofNat_of_lt (by omega)
  set torn := journal.serialize.take n
  have hstart := remaining_start torn
  nth_rewrite 2 [htake] at hstart
  rw [serializeHeader, List.append_assoc] at hstart
  have hcountAt := hstart.advance
  have hentriesAt := hcountAt.advance
  rw [Nat.add_assoc, ← List.length_append, ← serializeHeader, Nat.zero_add] at hentriesAt
  obtain ⟨hcollected, herror⟩ := readMany_readEntry_take hentriesAt (by omega)
  rw [deserialize, readVarInt_of_remaining _ hstart]
  simp only
  rw [readVarInt_of_remaining _ hcountAt]
  simp only
  rw [hcount, Nat.add_assoc, ← List.length_append, ← serializeHeader, Nat.zero_add, hcollected]
  split
  · rename_i got hloop
    cases herror got _ hloop
  · rfl

theorem deserialize_serialize (receiver : JournalManager)
    (hfits : journal.serialize.length < 2 ^ 64) :
    receiver.deserialize journal.serialize
      = ({ receiver.clear with
            sequence := journal.sequence
            entries := journal.entries
            totalJournalSize := payloadSize journal.entries }, none) := by
  have hlength : journal.serialize.length
      = journal.serializeHeader.length + (journal.entries.flatMap serializeEntry).length := by
    rw [serialize, List.length_append]
  have hwhole := deserialize_take_of_le receiver hfits (n := journal.serialize.length) (by omega)
  rw [List.take_length, wholeCount_eq_length (by omega), List.take_length] at hwhole
  exact hwhole

/-- **The torn journal.** A crash may keep any first part of a written journal. Cut inside its two
leading varints it is refused as corrupt. Cut behind them it is read without an error, the sequence
counter comes back, and the entries are the longest run of the journal's entries whose encodings are
complete. Uncut, it is the whole journal with its payload counter. The serialized journal is a
`std::vector`, so its length is a `size_t`. -/
theorem deserialize_take_serialize (platform : Platform) (hreach : Reachable platform journal)
    (hfits : journal.serialize.length < 2 ^ 64) (receiver : JournalManager) (n : Nat) :
    (n < journal.serializeHeader.length →
      (receiver.deserialize (journal.serialize.take n)).2 = some (.returned .journalCorrupt))
    ∧ (journal.serializeHeader.length ≤ n →
      (receiver.deserialize (journal.serialize.take n)).2 = none
      ∧ (receiver.deserialize (journal.serialize.take n)).1.sequence = journal.sequence
      ∧ ∃ kept ≤ journal.entries.length,
          (receiver.deserialize (journal.serialize.take n)).1.entries = journal.entries.take kept
          ∧ (journal.serializeHeader
              ++ (journal.entries.take kept).flatMap serializeEntry).length ≤ n
          ∧ ∀ m ≤ journal.entries.length,
              (journal.serializeHeader
                ++ (journal.entries.take m).flatMap serializeEntry).length ≤ n → m ≤ kept)
    ∧ (journal.serialize.length ≤ n →
      (receiver.deserialize (journal.serialize.take n)).2 = none
      ∧ (receiver.deserialize (journal.serialize.take n)).1.entries = journal.entries
      ∧ (receiver.deserialize (journal.serialize.take n)).1.totalJournalSize
          = journal.totalJournalSize) := by
  refine ⟨deserialize_take_of_lt receiver, ?_, ?_⟩
  · intro hn
    rw [deserialize_take_of_le receiver hfits hn]
    refine ⟨rfl, rfl, _, wholeCount_le_length _ _, rfl, ?_, ?_⟩
    · have hinside := length_flatMap_take_wholeCount serializeEntry journal.entries
        (n - journal.serializeHeader.length)
      rw [List.length_append]
      omega
    · intro m hm hinside
      rw [List.length_append] at hinside
      exact le_wholeCount hm (by omega)
  · intro hn
    rw [List.take_of_length_le hn, deserialize_serialize receiver hfits, hreach.counted]
    exact ⟨rfl, rfl, rfl⟩

def openCreate : JournalManager :=
  ((((new {}).beginCheckpoint { seconds := 1700000000, nanos := 5 }).1).logCreate
    Platform.reference 300 [1, 2, 3] { seconds := 1700000000, nanos := 6 }).1

theorem reachable_openCreate : Reachable Platform.reference openCreate :=
  .call (.logging (.logCreate 300 [1, 2, 3] { seconds := 1700000000, nanos := 6 }))
    (.call (.logging (.beginCheckpoint { seconds := 1700000000, nanos := 5 })) (.new {} (-1))
      (by decide))
    (by decide)

/-- The file of `openCreate` cut in the payload of its second entry: one entry is left. -/
theorem deserialize_take_serialize_openCreate :
    openCreate.serialize.length = 101
      ∧ (∃ kept ≤ openCreate.entries.length,
        ((new {}).deserialize (openCreate.serialize.take 70)).1.entries
            = openCreate.entries.take kept
          ∧ (openCreate.serializeHeader
              ++ (openCreate.entries.take kept).flatMap serializeEntry).length ≤ 70
          ∧ ∀ m ≤ openCreate.entries.length,
              (openCreate.serializeHeader
                ++ (openCreate.entries.take m).flatMap serializeEntry).length ≤ 70 → m ≤ kept) := by
  have hlength : openCreate.serialize.length = 101 := by decide +kernel
  have hheader : openCreate.serializeHeader.length ≤ 70 := by decide +kernel
  have htorn := deserialize_take_serialize Platform.reference reachable_openCreate
    (by rw [hlength]; decide) (new {}) 70
  exact ⟨hlength, (htorn.2.1 hheader).2.2⟩

end JournalManager

end NebulaFS
