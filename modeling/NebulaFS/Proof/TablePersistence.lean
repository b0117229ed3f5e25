import NebulaFS.Proof.Tombstones
import NebulaFS.Proof.VarIntLemmas

/-!
# Persistence of the hash table

`serialize` writes the probe length of occupied slots only, and a tombstone comes back with none. A
probe goes over such a slot at its first step and stops there at any later one, so a key is lost
exactly if it was displaced past a tombstone that is not in its ideal slot (`persists_iff`).
-/

namespace NebulaFS

open MaskedProbe Cursor

namespace HashTable

variable {table after target : HashTable} {entries : List Entry} {hash : UInt64} {k : Nat}

/-! ### What `find` meets -/

/-- A probe for the hash meets its entry after so many steps. -/
structure FoundAt (entries : List Entry) (hash : UInt64) (d : Nat) : Prop where
  holds : Holds entries hash (slotOf entries hash d)
  length : d ≤ (entryAt entries (slotOf entries hash d)).probeLength
  path : ∀ i < d, (entryAt entries (slotOf entries hash i)).used = true
    ∧ i ≤ (entryAt entries (slotOf entries hash i)).probeLength
    ∧ ¬ Holds entries hash (slotOf entries hash i)

theorem probe_eq_some_iff {found : Nat} :
    probe entries hash = some found ↔ ∃ d, found = slotOf entries hash d ∧ FoundAt entries hash d := by
  constructor
  · intro h
    obtain ⟨d, rfl, hholds, hlength, hpath⟩ := open_of_probeLoop h
    simp only [Nat.zero_add] at hlength hpath
    exact ⟨d, rfl, hholds, hlength, hpath⟩
  · rintro ⟨d, rfl, h⟩
    obtain ⟨fuel, hfuel⟩ := Nat.exists_eq_add_of_le (le_trans h.length (le_maxProbe entries _))
    rw [probe, hfuel, Nat.add_comm d]
    apply probeLoop_eq_some
    · intro i hi
      rw [Nat.zero_add]
      exact h.path i hi
    · rw [Nat.zero_add]
      exact h.length
    · exact h.holds

theorem FoundAt.unique {d e : Nat} (hd : FoundAt entries hash d) (he : FoundAt entries hash e) :
    d = e := by
  rcases lt_trichotomy d e with hlt | heq | hgt
  · exact absurd hd.holds (he.path d hlt).2.2
  · exact heq
  · exact absurd he.holds (hd.path e hgt).2.2

/-! ### What comes back -/

/-- An occupied entry comes back as it was, another one without its probe length. -/
structure Entry.Restores (entry restored : Entry) : Prop where
  of_occupied : entry.occupied = true → restored = entry
  occupied : entry.occupied = false → restored.occupied = false
  tombstone : entry.occupied = false → restored.tombstone = entry.tombstone
  probeLength : entry.occupied = false → restored.probeLength = 0

structure Restores (entries restored : List Entry) : Prop where
  length_eq : restored.length = entries.length
  entry : ∀ slot, (entryAt entries slot).Restores (entryAt restored slot)

theorem Entry.Restores.used_eq {entry restored : Entry} (h : entry.Restores restored) :
    restored.used = entry.used := by
  cases hoccupied : entry.occupied with
  | true => rw [h.of_occupied hoccupied]
  | false => rw [used, used, h.occupied hoccupied, h.tombstone hoccupied, hoccupied]

theorem Entry.Restores.live_eq {entry restored : Entry} (h : entry.Restores restored) :
    restored.live = entry.live := by
  cases hoccupied : entry.occupied with
  | true => rw [h.of_occupied hoccupied]
  | false => rw [live, live, h.occupied hoccupied, hoccupied, Bool.false_and, Bool.false_and]

theorem Entry.Restores.eq_of_live {entry restored : Entry} (h : entry.Restores restored)
    (hlive : entry.live = true) : restored = entry := by
  apply h.of_occupied
  rw [live, Bool.and_eq_true] at hlive
  exact hlive.1

/-- A probe goes on at a restored slot if it went on before, and the slot is occupied or the first. -/
theorem Entry.Restores.le_probeLength_iff {entry restored : Entry} (h : entry.Restores restored)
    (i : Nat) : i ≤ restored.probeLength
      ↔ i ≤ entry.probeLength ∧ (0 < i → entry.occupied = true) := by
  cases hoccupied : entry.occupied with
  | true =>
      rw [h.of_occupied hoccupied]
      exact ⟨fun hle => ⟨hle, fun _ => rfl⟩, And.left⟩
  | false =>
      rw [h.probeLength hoccupied]
      constructor
      · intro hle
        exact ⟨by omega, fun hpos => absurd hpos (by omega)⟩
      · rintro ⟨-, hfirst⟩
        by_contra hpos
        cases hfirst (by omega)

variable {restored : List Entry}

theorem Restores.slotOf_eq (h : Restores entries restored) (hash : UInt64) (i : Nat) :
    slotOf restored hash i = slotOf entries hash i := by
  rw [slotOf, slotOf, h.length_eq]

theorem Restores.holds_iff (h : Restores entries restored) {slot : Nat} :
    Holds restored hash slot ↔ Holds entries hash slot := by
  rw [Holds, Holds, (h.entry slot).live_eq]
  apply and_congr_right
  intro hlive
  rw [(h.entry slot).eq_of_live hlive]

/-- A key is met in the restored table if it was met before, over occupied slots after the first. -/
theorem Restores.foundAt_iff (h : Restores entries restored) {d : Nat} :
    FoundAt restored hash d ↔ FoundAt entries hash d
      ∧ ∀ i, 0 < i → i < d → (entryAt entries (slotOf entries hash i)).occupied = true := by
  constructor
  · rintro ⟨hholds, hlength, hpath⟩
    simp only [h.slotOf_eq, h.holds_iff, (h.entry _).used_eq, (h.entry _).le_probeLength_iff]
      at hholds hlength hpath
    refine ⟨⟨hholds, hlength.1, ?_⟩, ?_⟩
    · intro i hi
      obtain ⟨hused, hle, hother⟩ := hpath i hi
      exact ⟨hused, hle.1, hother⟩
    · intro i hpos hi
      exact (hpath i hi).2.1.2 hpos
  · rintro ⟨⟨hholds, hlength, hpath⟩, hoccupied⟩
    constructor <;>
      simp only [h.slotOf_eq, h.holds_iff, (h.entry _).used_eq, (h.entry _).le_probeLength_iff]
    · exact hholds
    · refine ⟨hlength, fun _ => ?_⟩
      have hlive := hholds.1
      rw [Entry.live, Bool.and_eq_true] at hlive
      exact hlive.1
    · intro i hi
      obtain ⟨hused, hle, hother⟩ := hpath i hi
      exact ⟨hused, ⟨hle, fun hpos => hoccupied i hpos hi⟩, hother⟩

/-- No key that `find` meets has a tombstone on its way after its ideal slot. -/
def Gapless (table : HashTable) : Prop :=
  ∀ key d, FoundAt table.entries (hashKey key) d → ∀ i, 0 < i → i < d →
    (entryAt table.entries (slotOf table.entries (hashKey key) i)).occupied = true

theorem find_eq_none_iff (table : HashTable) (key : Bytes) :
    table.find key = none ↔ ∀ d, ¬ FoundAt table.entries (hashKey key) d := by
  rw [find, Option.map_eq_none_iff, Option.eq_none_iff_forall_ne_some]
  constructor
  · intro hnone d hfound
    exact hnone _ (probe_eq_some_iff.mpr ⟨d, rfl, hfound⟩)
  · intro hnone found hprobe
    obtain ⟨d, -, hfound⟩ := probe_eq_some_iff.mp hprobe
    exact hnone d hfound

theorem FoundAt.find_eq {key : Bytes} {d : Nat} (h : FoundAt table.entries (hashKey key) d) :
    table.find key
      = some (entryAt table.entries (slotOf table.entries (hashKey key) d)).entryId := by
  rw [find, probe_eq_some_iff.mpr ⟨d, rfl, h⟩, Option.map_some]

theorem Restores.find_eq_iff (h : Restores table.entries after.entries) :
    (∀ key, after.find key = table.find key) ↔ table.Gapless := by
  constructor
  · intro hsame key d hfound i hpos hi
    have hfind := hsame key
    rw [hfound.find_eq] at hfind
    have hsome : ¬ ∀ e, ¬ FoundAt after.entries (hashKey key) e := by
      rw [← find_eq_none_iff, hfind]
      exact Option.some_ne_none _
    push Not at hsome
    obtain ⟨e, hrestored⟩ := hsome
    obtain ⟨hbefore, hoccupied⟩ := h.foundAt_iff.mp hrestored
    rw [hfound.unique hbefore] at hi
    exact hoccupied i hpos hi
  · intro hgapless key
    by_cases hmet : ∃ d, FoundAt table.entries (hashKey key) d
    · obtain ⟨d, hfound⟩ := hmet
      have hrestored := h.foundAt_iff.mpr ⟨hfound, hgapless key d hfound⟩
      rw [hfound.find_eq, hrestored.find_eq, h.slotOf_eq, (h.entry _).eq_of_live hfound.holds.1]
    · have hnone : table.find key = none := by
        rw [find_eq_none_iff]
        exact fun d hfound => hmet ⟨d, hfound⟩
      rw [hnone, find_eq_none_iff]
      exact fun d hfound => hmet ⟨d, (h.foundAt_iff.mp hfound).1⟩

/-! ### The codec -/

/-- What the loop makes of the entry that was in the slot. -/
def restoreEntry (before entry : Entry) : Entry :=
  if entry.occupied then entry
  else { before with occupied := false, tombstone := entry.tombstone, probeLength := 0 }

theorem restores_restoreEntry (before entry : Entry) : entry.Restores (restoreEntry before entry) := by
  cases hoccupied : entry.occupied with
  | true => constructor <;> simp [restoreEntry, hoccupied]
  | false => constructor <;> simp [restoreEntry, hoccupied]

theorem two_le_length_serializeEntry (entry : Entry) : 2 ≤ (serializeEntry entry).length := by
  simp [serializeEntry]

theorem flag_ne_zero (flag : Bool) : (if flag then 1 else 0 : UInt8) ≠ 0 ↔ flag = true := by
  cases flag <;> decide

variable {data rest : Bytes} {offset : Nat}

theorem deserializeEntry_of_remaining {entry : Entry} (before : Entry)
    (hlength : entry.probeLength < 2 ^ 32)
    (h : Remaining data offset (serializeEntry entry ++ rest)) :
    deserializeEntry data before offset
      = (restoreEntry before entry, .ok (offset + (serializeEntry entry).length)) := by
  rw [serializeEntry, List.cons_append, List.cons_append] at h
  have hflags := h.advance_one
  have hfields := hflags.advance_one
  rw [deserializeEntry, readByte_of_remaining h]
  simp only
  rw [readByte_of_remaining hflags]
  simp only [flag_ne_zero]
  cases hoccupied : entry.occupied with
  | false =>
      simp [restoreEntry, serializeEntry, hoccupied]
  | true =>
      rw [hoccupied, if_pos rfl, List.append_assoc, List.append_assoc] at hfields
      have hids := hfields.advance
      have hprobes := hids.advance
      simp only [if_true]
      rw [readVarInt_of_remaining .corruptIndex hfields]
      simp only
      rw [readVarInt_of_remaining .corruptIndex hids]
      simp only
      rw [readVarInt_of_remaining .corruptIndex hprobes]
      have hprobe : (UInt64.ofNat entry.probeLength).toNat % 2 ^ 32 = entry.probeLength := by
        rw [toNat_ofNat_of_lt (by omega), Nat.mod_eq_of_lt hlength]
      simp only [restoreEntry, serializeEntry, hoccupied, if_true, hprobe, Bool.decide_eq_true,
        List.length_cons, List.length_append, Prod.mk.injEq, Except.ok.injEq]
      constructor
      · cases entry
        simp only at hoccupied
        rw [hoccupied]
      · omega

theorem deserializeEntries_of_remaining {before : List Entry}
    (hsame : before.length = entries.length)
    (hlengths : ∀ entry ∈ entries, entry.probeLength < 2 ^ 32)
    (h : Remaining data offset (entries.flatMap serializeEntry)) :
    deserializeEntries data before offset = (List.zipWith restoreEntry before entries, none) := by
  induction before generalizing entries offset with
  | nil =>
      obtain rfl := List.length_eq_zero_iff.mp hsame.symm
      rfl
  | cons old before ih =>
      obtain _ | ⟨entry, entries⟩ := entries
      · cases hsame
      · rw [List.flatMap_cons] at h
        have hinside := h.length_eq
        have htwo := two_le_length_serializeEntry entry
        rw [List.length_append] at hinside
        rw [deserializeEntries, if_neg (by omega),
          deserializeEntry_of_remaining old (hlengths entry List.mem_cons_self) h]
        simp only
        rw [ih (Nat.succ.inj hsame) (fun other hmem => hlengths other (List.mem_cons_of_mem _ hmem))
          h.advance]
        rfl

theorem length_resize (entries : List Entry) (capacity : Nat) :
    (resize entries capacity).length = capacity := by
  rw [resize, List.length_append, List.length_take, List.length_replicate]
  omega

theorem restores_zipWith {before : List Entry} (hsame : before.length = entries.length) :
    Restores entries (List.zipWith restoreEntry before entries) := by
  have hlength : (List.zipWith restoreEntry before entries).length = entries.length := by
    rw [List.length_zipWith, hsame, Nat.min_self]
  refine ⟨hlength, fun slot => ?_⟩
  by_cases hslot : slot < entries.length
  · rw [entryAt_eq_getElem hslot, entryAt_eq_getElem (hlength ▸ hslot), List.getElem_zipWith]
    exact restores_restoreEntry _ _
  · have houtside : ∀ slots : List Entry, slots.length = entries.length → entryAt slots slot = {} := by
      intro slots hslots
      have hle : slots.length ≤ slot := by omega
      simp [entryAt, hle]
    rw [houtside _ rfl, houtside _ hlength]
    constructor <;> simp

/-- What a table is that the codec can carry. -/
structure Portable (table : HashTable) : Prop where
  capacity_le : table.capacity ≤ 1024 * 1024
  size_lt : table.size < 2 ^ 64
  probeLength_lt : ∀ slot, (entryAt table.entries slot).probeLength < 2 ^ 32

/-- Such a table comes back with its size and, up to its tombstones, with its slots. -/
theorem Portable.deserialize_serialize (h : Portable table) (target : HashTable) :
    ∃ restored, target.deserialize table.serialize = (restored, none)
      ∧ Restores table.entries restored.entries ∧ restored.size = table.size := by
  have hcapacity : (UInt64.ofNat table.entries.length).toNat = table.entries.length := by
    have hle : table.entries.length ≤ 1024 * 1024 := h.capacity_le
    exact toNat_ofNat_of_lt (by omega)
  have hsize : (UInt64.ofNat table.size).toNat = table.size := toNat_ofNat_of_lt h.size_lt
  have hlengths : ∀ entry ∈ table.entries, entry.probeLength < 2 ^ 32 := by
    intro entry hmem
    obtain ⟨slot, hslot, hget⟩ := List.mem_iff_getElem.mp hmem
    have hentry := h.probeLength_lt slot
    rwa [entryAt_eq_getElem hslot, hget] at hentry
  have hstart : Remaining table.serialize 0 (VarInt.encode (UInt64.ofNat table.entries.length)
      ++ (VarInt.encode (UInt64.ofNat table.size) ++ table.entries.flatMap serializeEntry)) := by
    rw [← List.append_assoc]
    exact remaining_start _
  have hsecond := hstart.advance
  have hslots := hsecond.advance
  have hend := hslots.length_eq
  have hmany := length_mul_le_length_flatMap (k := 2)
    fun entry (_ : entry ∈ table.entries) => two_le_length_serializeEntry entry
  have hle : table.entries.length ≤ 1024 * 1024 := h.capacity_le
  have hresized := length_resize target.entries table.entries.length
  refine ⟨{ entries := List.zipWith restoreEntry
              (resize target.entries table.entries.length) table.entries
            size := table.size }, ?_, restores_zipWith hresized, rfl⟩
  rw [deserialize, readVarInt_of_remaining .corruptIndex hstart]
  simp only
  rw [readVarInt_of_remaining .corruptIndex hsecond]
  simp only [hcapacity, hsize]
  rw [if_neg (by omega), if_neg (by omega), if_neg (by omega),
    deserializeEntries_of_remaining hresized hlengths hslots]

/-! ### Any run -/

/-- What every run keeps, also one that breaks the probes: the size counts the live slots, and the
probe lengths stay below the capacity. -/
structure Counted (table : HashTable) : Prop where
  pow : ∃ k, table.entries.length = 2 ^ k
  size_eq : table.size = (stored table.entries).card
  probe_lt : ∀ slot, (entryAt table.entries slot).probeLength < table.entries.length

theorem card_stored_set_of_live {slot : Nat} {entry : Entry} (hslot : slot < entries.length)
    (hcurrent : (entryAt entries slot).live = true) (hlive : entry.live = true) :
    (stored (entries.set slot entry)).card = (stored entries).card := by
  have hset := congrArg Multiset.card (stored_set entries hslot entry)
  rw [if_pos hcurrent, if_pos hlive, Multiset.card_add, Multiset.card_add, Multiset.card_singleton,
    Multiset.card_singleton] at hset
  exact Nat.add_left_cancel hset

theorem card_stored_set_of_not_live {slot : Nat} {entry : Entry} (hslot : slot < entries.length)
    (hcurrent : (entryAt entries slot).live = false) (hlive : entry.live = true) :
    (stored (entries.set slot entry)).card = (stored entries).card + 1 := by
  have hset := congrArg Multiset.card (stored_set entries hslot entry)
  rw [if_neg (by rw [hcurrent]; decide), if_pos hlive, Multiset.card_add, Multiset.card_add,
    Multiset.card_singleton, Multiset.card_zero] at hset
  omega

theorem probeLength_set_lt {n slot : Nat} {entry : Entry} (hentry : entry.probeLength < n)
    (hlengths : ∀ other, (entryAt entries other).probeLength < n) (other : Nat) :
    (entryAt (entries.set slot entry) other).probeLength < n := by
  by_cases heq : other = slot
  · by_cases hslot : slot < entries.length
    · rw [heq, entryAt_set_self hslot]
      exact hentry
    · rw [List.set_eq_of_length_le (not_lt.mp hslot)]
      exact hlengths other
  · rw [entryAt_set_of_ne heq]
    exact hlengths other

/-- One round at a live slot, on the way to a vacant one. -/
theorem Flight.shove_counts {flight : Flight} {n : Nat}
    (hslot : flight.slot < flight.entries.length) (hcurrent : flight.current.live = true)
    (hlive : flight.newEntry.live = true) (hcarried : flight.newEntry.probeLength < n)
    (hlengths : ∀ other, (entryAt flight.entries other).probeLength < n) :
    flight.shove.entries.length = flight.entries.length
      ∧ flight.shove.slot = next flight.entries.length flight.slot
      ∧ flight.shove.newEntry.live = true
      ∧ (stored flight.shove.entries).card = (stored flight.entries).card
      ∧ ∀ other, (entryAt flight.shove.entries other).probeLength < n := by
  by_cases hlt : flight.current.probeLength < flight.newEntry.probeLength
  · rw [shove_of_lt hlt]
    exact ⟨List.length_set, rfl, hcurrent, card_stored_set_of_live hslot hcurrent hlive,
      probeLength_set_lt hcarried hlengths⟩
  · rw [shove_of_not_lt hlt]
    exact ⟨rfl, rfl, hlive, rfl, hlengths⟩

/-- The loop lands before the vacant slot that is `m` steps ahead, so no probe length gets above the
one of the carried entry there. -/
theorem counted_place {known : Option (UInt64 × EntryID)} {fuel m n : Nat} {flight : Flight}
    {result : List Entry × Bool} (hplace : place known fuel flight = some result)
    (hslot : flight.slot < flight.entries.length) (hlive : flight.newEntry.live = true)
    (hvacant : (entryAt flight.entries (slotAt flight.entries.length flight.slot m)).live = false)
    (hcarried : flight.newEntry.probeLength + m < n)
    (hlengths : ∀ other, (entryAt flight.entries other).probeLength < n) :
    result.1.length = flight.entries.length
      ∧ (stored result.1).card = (if result.2 = true then (stored flight.entries).card + 1
        else (stored flight.entries).card)
      ∧ ∀ other, (entryAt result.1 other).probeLength < n := by
  induction fuel generalizing flight m with
  | zero => cases hplace
  | succ fuel ih =>
      cases hcurrent : flight.current.live with
      | false =>
          rw [place_of_not_live hcurrent] at hplace
          obtain rfl := Option.some.inj hplace
          exact ⟨List.length_set, card_stored_set_of_not_live hslot hcurrent hlive,
            probeLength_set_lt (by omega) hlengths⟩
      | true =>
          by_cases hmatch : ∃ value, known = some (flight.current.hash, value)
          · obtain ⟨value, rfl⟩ := hmatch
            rw [place_of_match hcurrent rfl] at hplace
            obtain rfl := Option.some.inj hplace
            exact ⟨List.length_set, card_stored_set_of_live hslot hcurrent hcurrent,
              probeLength_set_lt (hlengths flight.slot) hlengths⟩
          · have hother : ∀ target ∈ known, flight.current.hash ≠ target.1 := by
              intro target htarget heq
              exact hmatch ⟨target.2, by rw [heq]; exact htarget⟩
            rw [place_of_live hcurrent hother] at hplace
            obtain ⟨hlength, hnext, hnewLive, hcard, hafter⟩ :=
              flight.shove_counts hslot hcurrent hlive (by omega) hlengths
            -- the slot in hand is live, so the vacant one is still ahead
            cases m with
            | zero =>
                rw [slotAt_zero] at hvacant
                cases hvacant.symm.trans hcurrent
            | succ m =>
                have hne : slotAt flight.entries.length flight.slot (m + 1) ≠ flight.slot := by
                  intro heq
                  rw [heq] at hvacant
                  cases hvacant.symm.trans hcurrent
                have hn : 0 < flight.entries.length := by omega
                have hshoved := flight.shove_length
                have hslotAfter : flight.shove.slot < flight.shove.entries.length := by
                  rw [hlength, hnext]
                  exact (onLane_next _ _).lt hn
                have hvacantAfter : (entryAt flight.shove.entries
                    (slotAt flight.shove.entries.length flight.shove.slot m)).live = false := by
                  rw [hlength, hnext, slotAt_next, Flight.entryAt_shove_of_ne hne]
                  exact hvacant
                have hrest := ih hplace hslotAfter hnewLive hvacantAfter (by omega) hafter
                rwa [hlength, hcard] at hrest

theorem exists_not_live (hroom : (stored entries).card < entries.length) :
    ∃ slot < entries.length, (entryAt entries slot).live = false := by
  by_contra hnone
  push Not at hnone
  have hall : entries.filter Entry.live = entries := by
    rw [List.filter_eq_self]
    intro entry hmem
    obtain ⟨slot, hslot, hget⟩ := List.mem_iff_getElem.mp hmem
    have hlive := hnone slot hslot
    rwa [entryAt_eq_getElem hslot, hget, ne_eq, Bool.not_eq_false] at hlive
  rw [stored, Multiset.coe_card, List.length_map, hall] at hroom
  exact Nat.lt_irrefl _ hroom

/-- In one lane with a slot to spare, a vacant slot is ahead of every probe. -/
theorem exists_vacant_ahead (hk : entries.length = 2 ^ k)
    (hroom : (stored entries).card < entries.length) (hash : UInt64) :
    ∃ m < entries.length, (entryAt entries (slotOf entries hash m)).live = false := by
  obtain ⟨slot, hslot, hvacant⟩ := exists_not_live hroom
  refine ⟨wayTo entries hash slot, Nat.mod_lt _ (length_pos hk), ?_⟩
  rw [slotOf_wayTo hk hash hslot]
  exact hvacant

theorem Counted.growIfNeeded (h : Counted table) {fuel : Nat} {grown : HashTable}
    (hgrow : table.growIfNeeded fuel = some grown) :
    Counted grown ∧ grown.size < grown.entries.length := by
  obtain ⟨k, hk⟩ := h.pow
  have hpos := length_pos hk
  unfold HashTable.growIfNeeded at hgrow
  split at hgrow
  · obtain ⟨hfresh, hstored, hsize⟩ := fresh_rehash (Nat.mul_pos hpos (by decide)) hgrow
    have hlength : grown.entries.length = table.entries.length * 2 := hfresh.length_eq
    have hle := card_stored_le table.entries
    refine ⟨⟨⟨k + 1, ?_⟩, ?_, hfresh.probe_lt⟩, ?_⟩
    · rw [hlength, hk, Nat.pow_succ]
    · rw [hsize, hstored]
    · omega
  · next hroom =>
    cases hgrow
    exact ⟨h, size_lt_of_not_overloaded hpos hroom⟩

theorem Counted.insert (h : Counted table) {fuel : Nat} {key : Bytes} {value : EntryID}
    (hinsert : table.insert fuel key value = some after) : Counted after := by
  obtain ⟨grown, result, hgrow, hplace, rfl⟩ := insert_eq_some_iff.mp hinsert
  obtain ⟨hgrown, hroom⟩ := h.growIfNeeded hgrow
  obtain ⟨k, hk⟩ := hgrown.pow
  have hpos := length_pos hk
  obtain ⟨m, hm, hvacant⟩ := exists_vacant_ahead hk (hgrown.size_eq ▸ hroom) (hashKey key)
  have hcarried : (newEntry (hashKey key) value).probeLength + m < grown.entries.length :=
    (Nat.zero_add m).symm ▸ hm
  obtain ⟨hlength, hcard, hlengths⟩ := counted_place hplace (idealSlot_lt hpos _) rfl hvacant
    hcarried hgrown.probe_lt
  change result.1.length = grown.entries.length at hlength
  refine ⟨⟨k, hlength.trans hk⟩, ?_, ?_⟩
  · rw [hcard, hgrown.size_eq]
    rfl
  · rw [hlength]
    exact hlengths

theorem Counted.remove (h : Counted table) (key : Bytes) : Counted (table.remove key).1 := by
  unfold HashTable.remove
  obtain ⟨k, hk⟩ := h.pow
  cases hprobe : probe table.entries (hashKey key) with
  | none => exact h
  | some slot =>
      obtain ⟨hslot, hholds⟩ := holds_of_probe (length_pos hk) hprobe
      change Counted { entries := table.entries.set slot (entryAt table.entries slot).bury
                       size := table.size - 1 }
      refine ⟨⟨k, List.length_set.trans hk⟩, size_bury h.size_eq hslot hholds.1, ?_⟩
      rw [List.length_set]
      exact probeLength_set_lt (h.probe_lt slot) h.probe_lt

theorem Counted.step {keys : Set Bytes} (h : Counted table) (call : Call keys)
    (hstep : table.Step call.toOp after) : Counted after := by
  obtain ⟨fuel, hstep⟩ := hstep
  cases call with
  | insert key value => exact h.insert hstep
  | remove key =>
      obtain rfl := Option.some.inj hstep
      exact h.remove key

/-- The calls end one after the other, and the last in this table. -/
def Run {keys : Set Bytes} : HashTable → List (Call keys) → HashTable → Prop
  | table, [], last => last = table
  | table, call :: calls, last => ∃ after, table.Step call.toOp after ∧ Run after calls last

theorem Counted.run {keys : Set Bytes} {calls : List (Call keys)} (h : Counted table)
    (hrun : Run table calls after) : Counted after := by
  induction calls generalizing table with
  | nil => exact hrun ▸ h
  | cons call calls ih =>
      obtain ⟨middle, hstep, hrest⟩ := hrun
      exact ih (h.step call hstep) hrest

theorem counted_new (hk : 16 ≤ 2 ^ k) : Counted (new (2 ^ k)) := by
  have hlength : (new (2 ^ k)).entries.length = 2 ^ k := by
    rw [new, List.length_replicate, Nat.max_eq_left hk]
  refine ⟨⟨k, hlength⟩, ?_, ?_⟩
  · rw [new, stored_replicate]
    rfl
  · intro slot
    rw [hlength, new, entryAt_replicate]
    exact Nat.two_pow_pos k

theorem Counted.portable (h : Counted table) (hcapacity : table.capacity ≤ 1024 * 1024) :
    Portable table := by
  have hlength : table.entries.length ≤ 1024 * 1024 := hcapacity
  refine ⟨hcapacity, ?_, ?_⟩
  · have hsize := h.size_eq
    have hle := card_stored_le table.entries
    omega
  · intro slot
    have hlt := h.probe_lt slot
    omega

/-! ### When a table persists -/

/-- Read back into whatever table, it succeeds, finds the same and has the same size. -/
def Persists (table : HashTable) : Prop :=
  ∀ target : HashTable, ∃ restored, target.deserialize table.serialize = (restored, none)
    ∧ (∀ key, restored.find key = table.find key) ∧ restored.size = table.size

/-- **A table that a run of insertions and removals leaves persists exactly if `find` meets no key
past a tombstone after its ideal slot.** -/
theorem persists_iff {keys : Set Bytes} {calls : List (Call keys)} (hk : 16 ≤ 2 ^ k)
    (hrun : Run (new (2 ^ k)) calls table) (hcapacity : table.capacity ≤ 1024 * 1024) :
    Persists table ↔ Gapless table := by
  have hportable := ((counted_new hk).run hrun).portable hcapacity
  constructor
  · intro hpersists
    obtain ⟨restored, hresult, hfind, -⟩ := hpersists table
    obtain ⟨other, hother, hrestores, -⟩ := hportable.deserialize_serialize table
    obtain rfl : restored = other := (Prod.mk.inj (hresult.symm.trans hother)).1
    exact hrestores.find_eq_iff.mp hfind
  · intro hgapless target
    obtain ⟨restored, hresult, hrestores, hsize⟩ := hportable.deserialize_serialize target
    exact ⟨restored, hresult, hrestores.find_eq_iff.mpr hgapless, hsize⟩

/-- The second of two keys with one ideal slot, behind the tombstone of the first. -/
def survivor : HashTable where
  entries := List.replicate 12 {} ++
    [{ hash := hashKey [1], entryId := 7, tombstone := true },
      { hash := hashKey [17], entryId := 8, probeLength := 1, occupied := true }, {}, {}]
  size := 1

theorem gapless_survivor : survivor.Gapless := by
  intro key d hfound i hpos hi
  have honly : ∀ slot < 16, (entryAt survivor.entries slot).live = true → slot = 13 := by
    decide +kernel
  have hmeets : slotOf survivor.entries (entryAt survivor.entries 13).hash 1 = 13 := by
    decide +kernel
  have hslots : 0 < survivor.entries.length := by decide
  have hslot : slotOf survivor.entries (hashKey key) d < 16 := slotOf_lt hslots (hashKey key) d
  have hd := honly _ hslot hfound.holds.1
  have hhash := hfound.holds.2
  rw [hd] at hhash
  obtain ⟨-, -, hother⟩ := hfound.path 1 (by omega)
  rw [← hhash, hmeets] at hother
  exact absurd ⟨by decide +kernel, rfl⟩ hother

theorem persists_survivor :
    Run (new (2 ^ 4)) [.insert firstKey 7, .insert secondKey 8, .remove firstKey] survivor
      ∧ survivor.find [17] = some 8 ∧ Persists survivor := by
  have hrun : Run (new (2 ^ 4)) [.insert firstKey 7, .insert secondKey 8, .remove firstKey]
      survivor := by
    have hends : (((new (2 ^ 4)).insert 2 firstKey 7).bind fun table =>
        (table.insert 2 secondKey 8).map fun table => (table.remove firstKey).1)
          = some survivor := by
      decide +kernel
    obtain ⟨first, hfirst, hends⟩ := Option.bind_eq_some_iff.mp hends
    obtain ⟨second, hsecond, hlast⟩ := Option.map_eq_some_iff.mp hends
    exact ⟨first, ⟨2, hfirst⟩, second, ⟨2, hsecond⟩, survivor, ⟨0, congrArg some hlast⟩, rfl⟩
  exact ⟨hrun, by decide +kernel,
    (persists_iff (by decide) hrun (by decide)).mpr gapless_survivor⟩

/-- Three keys with the same ideal slot in a table of 16 slots. -/
def threeKeys : Set Bytes := {[1], [17], [33]}

theorem injOn_threeKeys : threeKeys.InjOn hashKey := by
  rintro first (rfl | rfl | rfl) second (rfl | rfl | rfl) heq
  all_goals first | rfl | exact absurd heq (by decide)

/-- The third key is displaced past the slot of the second, which is removed. -/
theorem not_persists_displaced :
    ∃ table, threeKeys.InjOn hashKey
      ∧ Run (new (2 ^ 4)) [Call.insert (⟨[1], by simp [threeKeys]⟩ : threeKeys) 7,
        .insert ⟨[17], by simp [threeKeys]⟩ 8, .insert ⟨[33], by simp [threeKeys]⟩ 9,
        .remove ⟨[17], by simp [threeKeys]⟩] table
      ∧ table.capacity = 16 ∧ table.find [33] = some 9
      ∧ (∃ restored, (new 16).deserialize table.serialize = (restored, none)
        ∧ restored.find [33] = none)
      ∧ ¬ Persists table := by
  have hends : (((new (2 ^ 4)).insert 3 [1] 7).bind fun table =>
      (table.insert 3 [17] 8).bind fun table =>
        (table.insert 3 [33] 9).map fun table =>
          let last := (table.remove [17]).1
          (last.capacity, last.find [33], ((new 16).deserialize last.serialize).2,
            ((new 16).deserialize last.serialize).1.find [33])) = some (16, some 9, none, none) := by
    decide +kernel
  obtain ⟨first, hfirst, hends⟩ := Option.bind_eq_some_iff.mp hends
  obtain ⟨second, hsecond, hends⟩ := Option.bind_eq_some_iff.mp hends
  obtain ⟨third, hthird, hends⟩ := Option.map_eq_some_iff.mp hends
  simp only [Prod.mk.injEq] at hends
  obtain ⟨hcapacity, hfound, hstatus, hlost⟩ := hends
  refine ⟨(third.remove [17]).1, injOn_threeKeys, ⟨first, ⟨3, hfirst⟩, second, ⟨3, hsecond⟩, third,
    ⟨3, hthird⟩, _, ⟨0, rfl⟩, rfl⟩, hcapacity, hfound, ⟨_, Prod.ext rfl hstatus, hlost⟩, ?_⟩
  intro hpersists
  obtain ⟨restored, hresult, hfind, -⟩ := hpersists (new 16)
  have hsame := hfind [33]
  rw [hfound] at hsame
  rw [hresult, hsame] at hlost
  cases hlost

end HashTable

end NebulaFS
