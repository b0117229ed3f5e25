import Mathlib.Data.List.Dedup
import Mathlib.Data.List.Find
import NebulaFS.Lib.Runs
import NebulaFS.Proof.TableGrowth

/-!
# Runs without removals

Without tombstones an insertion keeps every key wherever the lane of its hash has a slot to spare
(`Kept.insert`). Where the capacity is a power of two that is always so, and a run of insertions builds
a map (`insertAll_spec`). For other capacities an insertion into a full lane pushes another entry out,
and a rehash may not end, so a run keeps its keys only as long as they fit into the lanes
(`growth_keeps_iff`).
-/

namespace NebulaFS

open MaskedProbe

namespace HashTable

variable {table : HashTable} {entries : List Entry} {hash : UInt64}

theorem Untombed.set (h : Untombed entries) {slot : Nat} (hslot : slot < entries.length)
    {entry : Entry} (hlive : entry.live = true) : Untombed (entries.set slot entry) := by
  intro other hused
  by_cases heq : other = slot
  · rw [heq, entryAt_set_self hslot]
    exact hlive
  · rw [entryAt_set_of_ne heq] at hused ⊢
    exact h other hused

theorem probeLength_set {slot : Nat} (hslot : slot < entries.length) {entry : Entry}
    (hlength : entry.probeLength = (entryAt entries slot).probeLength) (other : Nat) :
    (entryAt (entries.set slot entry) other).probeLength = (entryAt entries other).probeLength := by
  by_cases heq : other = slot
  · rw [heq, entryAt_set_self hslot, hlength]
  · rw [entryAt_set_of_ne heq]

/-- An insertion where there is room, or the hash is stored. -/
theorem exists_inserted (hn : 0 < entries.length) (hsettled : Settled entries)
    (huntombed : Untombed entries) (hnodup : (hashes entries).Nodup)
    (hroom : hash ∈ hashes entries ∨ ∃ j, Vacant entries hash j) (value : EntryID) :
    ∃ fuel result, place (some (hash, value)) fuel (takeOff entries (newEntry hash value)) = some result
      ∧ Inserted entries hash value result ∧ Untombed result.1
      ∧ ((∀ slot, (entryAt entries slot).probeLength < entries.length) →
        ∀ slot, (entryAt result.1 slot).probeLength < result.1.length) := by
  by_cases hmem : hash ∈ hashes entries
  · obtain ⟨d, hmet⟩ := exists_met_of_untombed hsettled huntombed hmem
    have hslot := slotOf_lt hn hash d
    have hplace := Met.place_eq (newEntry hash value) hn hsettled rfl hmet value 0
    refine ⟨_, _, hplace, inserted_of_met hn hsettled hnodup hslot hmet.holds,
      huntombed.set hslot hmet.holds.1, ?_⟩
    intro hlengths other
    rw [List.length_set]
    refine lt_of_eq_of_lt (probeLength_set hslot ?_ other) (hlengths other)
    rfl
  · obtain ⟨j, hvacant⟩ := hroom.resolve_left hmem
    have hknown : ∀ target ∈ some (hash, value), target.1 ∉ hashes entries := by
      rintro target ⟨⟩
      exact hmem
    have hgrows : ∃ after, (∀ fuel, place (some (hash, value)) (fuel + 1 + j)
        (takeOff entries (newEntry hash value)) = some (after, true))
          ∧ Grown entries (newEntry hash value) after :=
      Vacant.grown _ hn hsettled huntombed rfl rfl hvacant hknown
    obtain ⟨after, hplace, hgrown⟩ := hgrows
    exact ⟨_, _, hplace 0, inserted_of_new hn hsettled hnodup hmem hgrown.length_eq hgrown.settled
      hgrown.stored_eq, hgrown.untombed, hgrown.probe_lt⟩

/-! ### Tables of a power of two -/

/-- The value of the last pair with this hash. -/
def lastValue (pairs : List (Bytes × EntryID)) (hash : UInt64) : Option EntryID :=
  (pairs.reverse.find? fun pair => hashKey pair.1 = hash).map Prod.snd

theorem lastValue_append (pairs : List (Bytes × EntryID)) (key : Bytes) (value : EntryID) :
    lastValue (pairs ++ [(key, value)]) hash
      = if hash = hashKey key then some value else lastValue pairs hash := by
  rw [lastValue, List.reverse_append, List.reverse_singleton, List.singleton_append,
    List.find?_cons]
  by_cases heq : hash = hashKey key
  · simp [heq]
  · simp [heq, Ne.symm heq, lastValue]

/-- A table that holds the last value of every key of the pairs. -/
structure Kept (pairs : List (Bytes × EntryID)) (table : HashTable) : Prop extends Sound table where
  untombed : Untombed table.entries
  probe_lt : ∀ slot, (entryAt table.entries slot).probeLength < table.entries.length
  find_eq : ∀ hash, findHash table.entries hash = lastValue pairs hash
  mem_hashes : ∀ hash, hash ∈ hashes table.entries ↔ ∃ pair ∈ pairs, hashKey pair.1 = hash

/-- An insertion keeps every key if its own is stored or has a slot to go to. -/
theorem Kept.insert {pairs : List (Bytes × EntryID)} (h : Kept pairs table) {fuel : Nat}
    {grown : HashTable} (hgrow : table.growIfNeeded fuel = some grown) {key : Bytes}
    (hroom : hashKey key ∈ hashes grown.entries ∨ ∃ j, Vacant grown.entries (hashKey key) j)
    (value : EntryID) :
    ∃ after, table.Step (.insert key value) after ∧ after.capacity = grown.capacity
      ∧ Kept (pairs ++ [(key, value)]) after := by
  have hspacious := h.toSound.spacious hgrow
  have hfresh : Untombed grown.entries
      ∧ ∀ slot, (entryAt grown.entries slot).probeLength < grown.entries.length := by
    rcases hspacious.kept_or_fresh with rfl | hfresh
    · exact ⟨h.untombed, h.probe_lt⟩
    · exact ⟨hfresh.untombed, hfresh.probe_lt⟩
  obtain ⟨more, result, hplace, hinserted, hafter, hlengths⟩ := exists_inserted hspacious.pos
    hspacious.settled hfresh.1 hspacious.nodup hroom value
  refine ⟨_, step_insert hgrow hplace, hinserted.length_eq, hinserted.sound hspacious.toSound, hafter,
    hlengths hfresh.2, ?_, ?_⟩
  · intro hash
    rw [hinserted.find_eq, hspacious.findHash_eq h.toSound, h.find_eq, lastValue_append]
  · intro hash
    rw [hinserted.mem_hashes, hashes, hspacious.stored_eq]
    change _ ∨ hash ∈ hashes table.entries ↔ _
    rw [h.mem_hashes]
    simp [or_comm, eq_comm]

/-- One whose capacity is a power of two. -/
structure Built (pairs : List (Bytes × EntryID)) (table : HashTable) : Prop extends
    Kept pairs table where
  capacity_eq : ∃ k, table.capacity = 2 ^ k

theorem Built.insert {pairs : List (Bytes × EntryID)} (h : Built pairs table) (key : Bytes)
    (value : EntryID) :
    ∃ after, table.Step (.insert key value) after ∧ Built (pairs ++ [(key, value)]) after := by
  obtain ⟨k, hk⟩ := h.capacity_eq
  obtain ⟨fuel, grown, hgrow, k', hk'⟩ := h.toSound.growIfNeeded_ends hk
  have hspacious := h.toSound.spacious hgrow
  have hvacant := hspacious.toSound.exists_vacant hspacious.room hk' (hashKey key)
  obtain ⟨after, hstep, hcapacity, hkept⟩ := h.toKept.insert hgrow (.inr hvacant) value
  exact ⟨after, hstep, hkept, k', hcapacity.trans hk'⟩

theorem insertAll_mono {fuel more : Nat} (hle : fuel ≤ more) {pairs : List (Bytes × EntryID)}
    {table after : HashTable} (h : table.insertAll fuel pairs = some after) :
    table.insertAll more pairs = some after := by
  induction pairs generalizing table with
  | nil => exact h
  | cons pair pairs ih =>
      simp only [insertAll, Option.bind_eq_bind, Option.bind_eq_some_iff] at h ⊢
      obtain ⟨next, hinsert, hrest⟩ := h
      exact ⟨next, step_mono hle (show table.step fuel (.insert pair.1 pair.2) = some next from hinsert),
        ih hrest⟩

theorem Built.insertAll {done : List (Bytes × EntryID)} (h : Built done table)
    (pairs : List (Bytes × EntryID)) :
    ∃ fuel after, table.insertAll fuel pairs = some after ∧ Built (done ++ pairs) after := by
  induction pairs generalizing done table with
  | nil => exact ⟨0, table, rfl, by rwa [List.append_nil]⟩
  | cons pair pairs ih =>
      obtain ⟨next, ⟨fuel, hstep⟩, hnext⟩ := h.insert pair.1 pair.2
      obtain ⟨more, after, hrest, hafter⟩ := ih hnext
      rw [List.append_assoc] at hafter
      refine ⟨max fuel more, after, ?_, hafter⟩
      simp only [HashTable.insertAll, Option.bind_eq_bind, Option.bind_eq_some_iff]
      exact ⟨next, step_mono (Nat.le_max_left fuel more) hstep,
        insertAll_mono (Nat.le_max_right fuel more) hrest⟩

theorem kept_new (initialCapacity : Nat) : Kept [] (new initialCapacity) := by
  have hpos : 0 < max initialCapacity 16 := lt_of_lt_of_le (by decide) (Nat.le_max_right _ _)
  have hfresh : Fresh (max initialCapacity 16) (new initialCapacity) := fresh_replicate hpos 0
  have hstored : stored (new initialCapacity).entries = 0 := stored_replicate _
  have hhashes : hashes (new initialCapacity).entries = 0 := by
    rw [hashes, hstored, Multiset.map_zero]
  have hlength : 0 < (new initialCapacity).entries.length := by
    rw [hfresh.length_eq]
    exact hpos
  have hnodup : (hashes (new initialCapacity).entries).Nodup := by
    rw [hhashes]
    exact Multiset.nodup_zero
  refine ⟨⟨hlength, hfresh.settled, hnodup, ?_⟩, hfresh.untombed, hfresh.probe_lt, ?_, ?_⟩
  · rw [hstored]
    rfl
  · intro hash
    apply Option.eq_none_iff_forall_ne_some.mpr
    intro value hvalue
    rw [findHash_eq_some_iff hlength hfresh.settled hnodup, hstored] at hvalue
    exact Multiset.notMem_zero _ hvalue
  · intro hash
    rw [hhashes]
    simp

theorem built_new {k : Nat} (hk : 16 ≤ 2 ^ k) : Built [] (new (2 ^ k)) :=
  ⟨kept_new (2 ^ k), k, List.length_replicate.trans (Nat.max_eq_left hk)⟩

/-- The hash is in one slot, which is no further from its ideal slot than the probe length says, and
the slots before it are occupied and let the probe go on. -/
def Positioned (table : HashTable) (hash : UInt64) : Prop :=
  ∃ slot < table.capacity, Holds table.entries hash slot
    ∧ (∀ other < table.capacity, Holds table.entries hash other → other = slot)
    ∧ distance table.capacity (idealSlot table.capacity hash) slot
      ≤ (entryAt table.entries slot).probeLength
    ∧ ∀ j < distance table.capacity (idealSlot table.capacity hash) slot,
      let entry := entryAt table.entries ((idealSlot table.capacity hash + j) % table.capacity)
      entry.occupied = true ∧ j ≤ entry.probeLength

theorem slotOf_two_pow {k : Nat} (hk : entries.length = 2 ^ k) (hash : UInt64) (j : Nat) :
    slotOf entries hash j = (idealSlot entries.length hash + j) % entries.length := by
  have hlt : idealSlot (2 ^ k) hash < 2 ^ k := (onLane_idealSlot _ hash).lt (Nat.two_pow_pos k)
  rw [slotOf, hk, slotAt_two_pow hlt]

/-- The way around the whole table is not needed. -/
theorem Reaches.distance_le {k : Nat} (hk : entries.length = 2 ^ k) {slot probeLength : Nat}
    (h : Reaches entries hash slot probeLength) :
    distance entries.length (idealSlot entries.length hash) slot ≤ probeLength
      ∧ Open entries hash (distance entries.length (idealSlot entries.length hash) slot) := by
  obtain ⟨d, rfl, hle, hopen⟩ := h
  have hlt : idealSlot entries.length hash < entries.length := by
    rw [hk]
    exact (onLane_idealSlot _ hash).lt (Nat.two_pow_pos k)
  rw [slotOf_two_pow hk, distance_mod hlt]
  exact ⟨le_trans (Nat.mod_le _ _) hle, hopen.mono (Nat.mod_le _ _)⟩

theorem Built.positioned {pairs : List (Bytes × EntryID)} (h : Built pairs table)
    {pair : Bytes × EntryID} (hpair : pair ∈ pairs) : table.Positioned (hashKey pair.1) := by
  obtain ⟨k, hk⟩ := h.capacity_eq
  obtain ⟨slot, hslot, hlive, hhash⟩ :=
    mem_hashes_iff.mp ((h.mem_hashes (hashKey pair.1)).mpr ⟨pair, hpair, rfl⟩)
  have hreaches := h.settled slot hslot hlive
  rw [hhash] at hreaches
  obtain ⟨hdistance, hopen⟩ := hreaches.distance_le hk
  refine ⟨slot, hslot, ⟨hlive, hhash⟩, ?_, hdistance, ?_⟩
  · intro other hother hholds
    exact nodup_hashes_iff.mp h.nodup other hother slot hslot hholds.1 hlive
      (hholds.2.trans hhash.symm)
  · intro j hj
    obtain ⟨hused, hlength⟩ := hopen j hj
    rw [slotOf_two_pow hk] at hused hlength
    have hliveJ := h.untombed _ hused
    rw [Entry.live, Bool.and_eq_true] at hliveJ
    exact ⟨hliveJ.1, hlength⟩

theorem Built.find_eq_last {pairs : List (Bytes × EntryID)} (h : Built pairs table) {key : Bytes}
    (hkey : ∀ pair ∈ pairs, hashKey pair.1 = hashKey key → pair.1 = key) :
    table.find key = (pairs.reverse.find? fun pair => pair.1 = key).map Prod.snd := by
  have hfind := h.find_eq (hashKey key)
  change table.find key = _ at hfind
  rw [hfind, lastValue]
  congr 1
  apply List.find?_congr
  intro pair hpair
  apply decide_eq_decide.mpr
  constructor
  · exact hkey pair (List.mem_reverse.mp hpair)
  · intro heq
    rw [heq]

theorem Built.size_eq_length {pairs : List (Bytes × EntryID)} (h : Built pairs table)
    (hinj : ∀ first ∈ pairs, ∀ second ∈ pairs, hashKey first.1 = hashKey second.1 →
      first.1 = second.1) : table.size = (pairs.map Prod.fst).dedup.length := by
  have hkeys : ((pairs.map Prod.fst).dedup.map hashKey).Nodup := by
    apply List.Nodup.map_on _ (List.nodup_dedup _)
    intro first hfirst second hsecond heq
    rw [List.mem_dedup, List.mem_map] at hfirst hsecond
    obtain ⟨firstPair, hfirstPair, rfl⟩ := hfirst
    obtain ⟨secondPair, hsecondPair, rfl⟩ := hsecond
    exact hinj firstPair hfirstPair secondPair hsecondPair heq
  have hhashes : hashes table.entries = ((pairs.map Prod.fst).dedup.map hashKey : List UInt64) := by
    rw [Multiset.Nodup.ext h.nodup (Multiset.coe_nodup.mpr hkeys)]
    intro hash
    rw [h.mem_hashes]
    simp
  calc table.size = (hashes table.entries).card := by
        rw [h.size_eq, hashes, Multiset.card_map]
    _ = (pairs.map Prod.fst).dedup.length := by
        rw [hhashes, Multiset.coe_card, List.length_map]

/-- **Insertion builds a map.** -/
theorem insertAll_spec {k : Nat} (hk : 16 ≤ 2 ^ k) (pairs : List (Bytes × EntryID))
    (hinj : ∀ first ∈ pairs, ∀ second ∈ pairs, hashKey first.1 = hashKey second.1 →
      first.1 = second.1) :
    ∃ fuel table, (new (2 ^ k)).insertAll fuel pairs = some table
      ∧ (∀ pair ∈ pairs, table.Positioned (hashKey pair.1))
      ∧ (∀ slot, (entryAt table.entries slot).probeLength < table.capacity)
      ∧ (∀ key, (∀ pair ∈ pairs, hashKey pair.1 = hashKey key → pair.1 = key) →
        table.find key = (pairs.reverse.find? fun pair => pair.1 = key).map Prod.snd)
      ∧ table.size = (pairs.map Prod.fst).dedup.length := by
  obtain ⟨fuel, table, hrun, hbuilt⟩ := (built_new hk).insertAll pairs
  rw [List.nil_append] at hbuilt
  exact ⟨fuel, table, hrun, fun pair hpair => hbuilt.positioned hpair, hbuilt.probe_lt,
    fun key hkey => hbuilt.find_eq_last hkey, hbuilt.size_eq_length hinj⟩

/-- Two keys, one of them written twice. -/
def twoKeys : List (Bytes × EntryID) := [([1], 7), ([2], 8), ([1], 9)]

theorem insertAll_twoKeys : ∃ fuel table, (new (2 ^ 4)).insertAll fuel twoKeys = some table
    ∧ table.find [1] = some 9 ∧ table.size = 2 := by
  have hinj : ∀ first ∈ twoKeys, ∀ second ∈ twoKeys, hashKey first.1 = hashKey second.1 →
      first.1 = second.1 := by
    decide
  have hkey : ∀ pair ∈ twoKeys, hashKey pair.1 = hashKey [1] → pair.1 = [1] := by
    decide
  obtain ⟨fuel, table, hrun, -, -, hfind, hsize⟩ :=
    insertAll_spec (show 16 ≤ 2 ^ 4 by decide) twoKeys hinj
  exact ⟨fuel, table, hrun, hfind [1] hkey, hsize⟩

/-! ### A full lane -/

theorem Walked.nodup_hashes {n i : Nat} {start flight : Flight} (h : Walked n start i flight)
    (hnodup : (hashes start.entries).Nodup) (hnew : start.newEntry.hash ∉ hashes start.entries) :
    (hashes flight.entries).Nodup := by
  have hmap := congrArg (Multiset.map Prod.fst) h.stored_eq
  rw [Multiset.map_cons, Multiset.map_cons] at hmap
  have hall : (start.newEntry.hash ::ₘ hashes start.entries).Nodup :=
    Multiset.nodup_cons.mpr ⟨hnew, hnodup⟩
  change _ = start.newEntry.hash ::ₘ hashes start.entries at hmap
  rw [← hmap, Multiset.nodup_cons] at hall
  exact hall.2

theorem Walked.untombed {n i : Nat} {start flight : Flight} (h : Walked n start i flight)
    (huntombed : Untombed start.entries) : Untombed flight.entries := by
  intro slot hused
  rw [h.used_eq] at hused
  rw [h.live_eq]
  exact huntombed slot hused

/-- The slot that a new entry takes in a full lane: the first one on its probe with a smaller probe
length than the entry has there. `t` slots later the probe is back. -/
structure Seat (entries : List Entry) (hash : UInt64) (m t : Nat) : Prop where
  counts : ∀ i < m, i ≤ (entryAt entries (slotOf entries hash i)).probeLength
  swaps : (entryAt entries (slotOf entries hash m)).probeLength < m
  returns : slotOf entries hash (m + 1 + t) = slotOf entries hash m
  away : ∀ k < t, slotOf entries hash (m + 1 + k) ≠ slotOf entries hash m

theorem exists_seat (hn : 0 < entries.length) (hash : UInt64) : ∃ m t, Seat entries hash m t := by
  classical
  have hswap : ∃ i, (entryAt entries (slotOf entries hash i)).probeLength < i :=
    ⟨maxProbe entries + 1, Nat.lt_succ_of_le (le_maxProbe entries _)⟩
  have hreturn : ∃ t, slotOf entries hash (Nat.find hswap + 1 + t)
      = slotOf entries hash (Nat.find hswap) := by
    refine ⟨laneSize entries.length - 1, ?_⟩
    have hpos := laneSize_pos hn
    rw [show Nat.find hswap + 1 + (laneSize entries.length - 1)
      = Nat.find hswap + laneSize entries.length by omega, slotOf, slotAt_add]
    exact slotAt_laneSize hn (onLane_slotAt (onLane_idealSlot _ hash) _)
  refine ⟨Nat.find hswap, Nat.find hreturn, ?_, Nat.find_spec hswap, Nat.find_spec hreturn, ?_⟩
  · intro i hi
    exact not_lt.mp (Nat.find_min hswap hi)
  · intro k hk
    exact Nat.find_min hreturn hk

variable {entry : Entry} {m t : Nat}

theorem Seat.iterate_eq (h : Seat entries entry.hash m t) (hlength : entry.probeLength = 0) {i : Nat}
    (hi : i ≤ m) : Flight.shove^[i] (takeOff entries entry)
      = { entries := entries, slot := slotOf entries entry.hash i
          newEntry := { entry with probeLength := i } } :=
  iterate_shove_of_open hlength fun k hk => h.counts k (lt_of_lt_of_le hk hi)

/-- The entry stays in the slot that it has taken. -/
theorem Seat.entryAt_eq (h : Seat entries entry.hash m t) (hn : 0 < entries.length)
    (hlength : entry.probeLength = 0)
    (hwalked : ∀ i, Walked entries.length (takeOff entries entry) i
      (Flight.shove^[i] (takeOff entries entry))) {i : Nat} (hi : i ≤ t) :
    entryAt (Flight.shove^[m + 1 + i] (takeOff entries entry)).entries (slotOf entries entry.hash m)
      = { entry with probeLength := m } := by
  induction i with
  | zero =>
      rw [Nat.add_zero, Function.iterate_succ_apply', h.iterate_eq hlength (le_refl m),
        Flight.shove_of_lt]
      · exact entryAt_set_self (slotOf_lt hn _ _) _
      · exact h.swaps
  | succ i ih =>
      rw [← Nat.add_assoc, Function.iterate_succ_apply', Flight.entryAt_shove_of_ne]
      · exact ih (Nat.le_of_succ_le hi)
      · rw [(hwalked (m + 1 + i)).slot_eq]
        exact (h.away i (Nat.lt_of_succ_le hi)).symm

/-- On its way the entry in flight meets no other slot of the new hash. -/
theorem Seat.hash_ne (h : Seat entries entry.hash m t) (hn : 0 < entries.length)
    (hlength : entry.probeLength = 0) (hlive : entry.live = true)
    (hwalked : ∀ i, Walked entries.length (takeOff entries entry) i
      (Flight.shove^[i] (takeOff entries entry)))
    (hnodup : (hashes entries).Nodup) (hnew : entry.hash ∉ hashes entries)
    (hfull : ∀ j, (entryAt entries (slotOf entries entry.hash j)).live = true) {i : Nat}
    (hi : i < m + 1 + t) :
    (Flight.shove^[i] (takeOff entries entry)).current.hash ≠ entry.hash := by
  intro hhash
  by_cases hle : i ≤ m
  · rw [h.iterate_eq hlength hle] at hhash
    exact hnew (mem_hashes_iff.mpr ⟨_, slotOf_lt hn _ i, hfull i, hhash⟩)
  · obtain ⟨k, rfl⟩ := Nat.exists_eq_add_of_le (Nat.succ_le_of_lt (Nat.lt_of_not_le hle))
    have hk : k < t := by omega
    have hseat := h.entryAt_eq hn hlength hwalked (le_of_lt hk)
    have hwalk := hwalked (m + 1 + k)
    have hslot : (Flight.shove^[m + 1 + k] (takeOff entries entry)).slot
        = slotOf entries entry.hash (m + 1 + k) := hwalk.slot_eq
    have hcurrent : (Flight.shove^[m + 1 + k] (takeOff entries entry)).current.live = true := by
      rw [Flight.current, hwalk.live_eq, hslot]
      exact hfull (m + 1 + k)
    rw [Flight.current, hslot] at hhash hcurrent
    have hlengthEq := hwalk.flying.length_eq
    apply h.away k hk
    refine nodup_hashes_iff.mp (hwalk.nodup_hashes hnodup hnew) _ ?_ _ ?_ hcurrent ?_ ?_
    · rw [hlengthEq]
      exact slotOf_lt hn _ _
    · rw [hlengthEq]
      exact slotOf_lt hn _ _
    · rw [hseat]
      exact hlive
    · rw [hseat, hhash]

/-- In a full lane the new entry pushes another one out: its probe length grows until it takes a slot,
and the loop ends when it comes back to it. -/
theorem exists_pushed (hn : 0 < entries.length) (hsettled : Settled entries)
    (huntombed : Untombed entries) (hnodup : (hashes entries).Nodup) (hnew : hash ∉ hashes entries)
    (hfull : ∀ j, (entryAt entries (slotOf entries hash j)).live = true) (value : EntryID) :
    ∃ fuel result pushed, place (some (hash, value)) fuel (takeOff entries (newEntry hash value))
        = some result
      ∧ pushed.length = entries.length ∧ Inserted pushed hash value result ∧ Untombed result.1 := by
  have hflying : Flying entries.length (takeOff entries (newEntry hash value)) :=
    flying_takeOff hn hsettled rfl
  have hwalked : ∀ i, Walked entries.length (takeOff entries (newEntry hash value)) i
      (Flight.shove^[i] (takeOff entries (newEntry hash value))) :=
    fun i => walked_iterate hflying i fun k _ => hfull k
  obtain ⟨m, t, hseat⟩ := exists_seat hn hash
  have hback := hwalked (m + 1 + t)
  have hslot : (Flight.shove^[m + 1 + t] (takeOff entries (newEntry hash value))).slot
      = slotOf entries hash m := hback.slot_eq.trans hseat.returns
  have hcurrent : (Flight.shove^[m + 1 + t] (takeOff entries (newEntry hash value))).current
      = { newEntry hash value with probeLength := m } := by
    rw [Flight.current, hslot]
    exact Seat.entryAt_eq hseat hn rfl hwalked (le_refl t)
  have hholds : Holds (Flight.shove^[m + 1 + t] (takeOff entries (newEntry hash value))).entries hash
      (Flight.shove^[m + 1 + t] (takeOff entries (newEntry hash value))).slot := by
    change (Flight.current _).live = true ∧ (Flight.current _).hash = hash
    rw [hcurrent]
    exact ⟨rfl, rfl⟩
  have hwalk : place (some (hash, value)) (1 + (m + 1 + t)) (takeOff entries (newEntry hash value))
      = place (some (hash, value)) 1
        (Flight.shove^[m + 1 + t] (takeOff entries (newEntry hash value))) := by
    apply place_iterate
    · intro i _
      rw [Flight.current, (hwalked i).live_eq, (hwalked i).slot_eq]
      exact hfull i
    · rintro i hi target ⟨⟩
      exact Seat.hash_ne hseat hn rfl rfl hwalked hnodup hnew hfull hi
  have hlt := hback.flying.slot_lt
  rw [← hback.flying.length_eq] at hlt
  refine ⟨_, _, _, hwalk.trans (place_of_match hholds.1 hholds.2 0), hback.flying.length_eq, ?_, ?_⟩
  · exact inserted_of_met (hback.flying.length_eq ▸ hn) hback.flying.settled
      (hback.nodup_hashes hnodup hnew) hlt hholds
  · exact (hback.untombed huntombed).set hlt hholds.1

/-! ### Runs at any capacity -/

/-- What holds of a table without removals at any capacity. -/
structure Intact (table : HashTable) : Prop where
  pos : 0 < table.entries.length
  settled : Settled table.entries
  untombed : Untombed table.entries
  nodup : (hashes table.entries).Nodup

theorem Intact.rehash (h : Intact table) {n fuel : Nat} (hn : 0 < n) {after : HashTable}
    (hrehash : table.rehash fuel n = some after) : Intact after := by
  obtain ⟨hfresh, hstored, -⟩ := fresh_rehash hn hrehash
  refine ⟨?_, hfresh.settled, hfresh.untombed, ?_⟩
  · rw [hfresh.length_eq]
    exact hn
  · rw [hashes, hstored]
    exact h.nodup

theorem Intact.growIfNeeded (h : Intact table) {fuel : Nat} {grown : HashTable}
    (hgrow : table.growIfNeeded fuel = some grown) : Intact grown := by
  unfold HashTable.growIfNeeded at hgrow
  split at hgrow
  · exact h.rehash (Nat.mul_pos h.pos (by decide)) hgrow
  · cases hgrow
    exact h

/-- An insertion ends once the growth does. -/
theorem Intact.insert (h : Intact table) {fuel : Nat} {grown : HashTable}
    (hgrow : table.growIfNeeded fuel = some grown) (key : Bytes) (value : EntryID) :
    ∃ after, table.Step (.insert key value) after ∧ Intact after
      ∧ after.capacity = grown.capacity := by
  have hgrown := h.growIfNeeded hgrow
  have hplaced : ∃ more result before, place (some (hashKey key, value)) more
        (takeOff grown.entries (newEntry (hashKey key) value)) = some result
      ∧ before.length = grown.entries.length ∧ Inserted before (hashKey key) value result
      ∧ Untombed result.1 := by
    by_cases hroom : hashKey key ∈ hashes grown.entries ∨ ∃ j, Vacant grown.entries (hashKey key) j
    · obtain ⟨more, result, hplace, hinserted, huntombed, -⟩ := exists_inserted hgrown.pos
        hgrown.settled hgrown.untombed hgrown.nodup hroom value
      exact ⟨more, result, grown.entries, hplace, rfl, hinserted, huntombed⟩
    · rw [not_or] at hroom
      have hfull : ∀ j, (entryAt grown.entries (slotOf grown.entries (hashKey key) j)).live = true := by
        intro j
        rw [← Bool.not_eq_false]
        intro hvacant
        exact hroom.2 (exists_vacant hvacant)
      exact exists_pushed hgrown.pos hgrown.settled hgrown.untombed hgrown.nodup hroom.1 hfull value
  obtain ⟨more, result, before, hplace, hlength, hinserted, huntombed⟩ := hplaced
  refine ⟨_, step_insert hgrow hplace, ⟨?_, hinserted.settled, huntombed, hinserted.nodup⟩,
    hinserted.length_eq.trans hlength⟩
  rw [hinserted.length_eq, hlength]
  exact hgrown.pos

theorem mem_hashes_of_find (hn : 0 < entries.length)
    (h : (findHash entries hash).isSome = true) : hash ∈ hashes entries := by
  rw [findHash, Option.isSome_map, Option.isSome_iff_exists] at h
  obtain ⟨found, hprobe⟩ := h
  obtain ⟨hfound, hlive, rfl⟩ := holds_of_probe hn hprobe
  exact mem_hashes_iff.mpr ⟨found, hfound, hlive, rfl⟩

/-- A table with the pairs that were inserted into it. -/
structure Recorded where
  table : HashTable
  inserted : List (Bytes × EntryID) := []

inductive Growth
  | insert (key : Bytes) (value : EntryID)
  | reserve (newCapacity : Nat)

namespace Growth

def toOp : Growth → Op
  | .insert key value => .insert key value
  | .reserve newCapacity => .reserve newCapacity

def inserts : Growth → List (Bytes × EntryID)
  | .insert key value => [(key, value)]
  | .reserve _ => []

/-- The call ends in this table, and its pair is recorded. -/
def Steps (before : Recorded) (growth : Growth) (after : Recorded) : Prop :=
  before.table.Step growth.toOp after.table ∧ after.inserted = before.inserted ++ growth.inserts

/-- The call ends. The key that it inserts is found with its value, and every other key that was
inserted is found. -/
def Keeps (before : Recorded) (growth : Growth) : Prop :=
  ∃ after, before.table.Step growth.toOp after
    ∧ (∀ pair ∈ growth.inserts, after.find pair.1 = some pair.2)
    ∧ ∀ pair ∈ before.inserted, (after.find pair.1).isSome = true

/-- No lane of a table of `n` slots gets more of the hashes than it has slots. -/
def FitInto (stored : Multiset UInt64) (n : Nat) : Prop :=
  ∀ lane, laneLoad n stored lane ≤ laneSize n

/-- How many slots the table has once it has grown for an insertion. -/
def grownCapacity (table : HashTable) : Nat :=
  if table.overloaded then table.capacity * 2 else table.capacity

/-- What is stored after the call fits into the table that the call puts it in. A hash that is stored
already counts once. -/
def Fits (before : Recorded) : Growth → Prop
  | .insert key _ =>
      FitInto ((hashes before.table.entries).ndinsert (hashKey key)) (grownCapacity before.table)
  | .reserve newCapacity => before.table.capacity < newCapacity →
      newCapacity ≤ maxSize ∧ FitInto (hashes before.table.entries) newCapacity

end Growth

theorem Intact.growIfNeeded_ends_iff (h : Intact table) :
    (∃ fuel grown, table.growIfNeeded fuel = some grown)
      ↔ (table.overloaded = true →
        Growth.FitInto (hashes table.entries) (table.capacity * 2)) := by
  unfold HashTable.growIfNeeded
  by_cases hover : table.overloaded = true
  · simp only [forall_true_left, hover]
    exact rehash_ends_iff (Nat.mul_pos h.pos (by decide)) table
  · simp [hover]

theorem capacity_of_growIfNeeded (hpos : 0 < table.capacity) {fuel : Nat} {grown : HashTable}
    (hgrow : table.growIfNeeded fuel = some grown) :
    grown.capacity = Growth.grownCapacity table := by
  unfold HashTable.growIfNeeded at hgrow
  unfold Growth.grownCapacity
  split at hgrow
  · next hover =>
    rw [if_pos hover]
    exact (fresh_rehash (Nat.mul_pos hpos (by decide)) hgrow).1.length_eq
  · next hroom =>
    cases hgrow
    rw [if_neg hroom]

theorem Kept.intact {pairs : List (Bytes × EntryID)} (h : Kept pairs table) : Intact table :=
  ⟨h.pos, h.settled, h.untombed, h.nodup⟩

theorem Kept.rehash {pairs : List (Bytes × EntryID)} (h : Kept pairs table) {n fuel : Nat}
    (hn : 0 < n) {after : HashTable} (hrehash : table.rehash fuel n = some after) :
    Kept pairs after := by
  obtain ⟨hfresh, hstored, hsize⟩ := fresh_rehash hn hrehash
  have hintact := h.intact.rehash hn hrehash
  refine ⟨⟨hintact.pos, hintact.settled, hintact.nodup, by rw [hsize, hstored]⟩, hintact.untombed,
    hfresh.probe_lt, ?_, ?_⟩
  · intro hash
    rw [findHash_congr h.pos h.settled h.nodup hintact.pos hintact.settled hstored, h.find_eq]
  · intro hash
    rw [hashes, hstored]
    exact h.mem_hashes hash

/-- Where the key fits in, the table grows and there is a slot for it. -/
theorem Kept.insert_of_fits {pairs : List (Bytes × EntryID)} (h : Kept pairs table) {key : Bytes}
    (hfits : Growth.FitInto ((hashes table.entries).ndinsert (hashKey key))
      (Growth.grownCapacity table)) (value : EntryID) :
    ∃ after, table.Step (.insert key value) after ∧ Kept (pairs ++ [(key, value)]) after := by
  have hgrows : ∃ fuel grown, table.growIfNeeded fuel = some grown := by
    refine h.intact.growIfNeeded_ends_iff.mpr fun hover lane => ?_
    have hcapacity : Growth.grownCapacity table = table.capacity * 2 := if_pos hover
    rw [← hcapacity]
    exact (laneLoad_mono _ (Multiset.le_ndinsert_self _ _) lane).trans (hfits lane)
  obtain ⟨fuel, grown, hgrow⟩ := hgrows
  have hspacious := h.toSound.spacious hgrow
  have hcapacity : grown.entries.length = _ := capacity_of_growIfNeeded h.pos hgrow
  have hsame : hashes grown.entries = hashes table.entries := by
    rw [hashes, hspacious.stored_eq]
    rfl
  have hroom : hashKey key ∈ hashes grown.entries
      ∨ ∃ j, Vacant grown.entries (hashKey key) j := by
    refine or_iff_not_imp_left.mpr fun hnew => ?_
    have hload := hfits (laneOf grown.entries.length (hashKey key))
    rw [← hcapacity, ← hsame, Multiset.ndinsert_of_notMem hnew, laneLoad_cons_self] at hload
    obtain ⟨i, hi⟩ := (exists_vacant_iff hspacious.pos hspacious.settled (hashKey key)).mpr hload
    exact exists_vacant hi
  obtain ⟨after, hstep, -, hkept⟩ := h.insert hgrow hroom value
  exact ⟨after, hstep, hkept⟩

theorem reserve_ends_iff (table : HashTable) (newCapacity : Nat) :
    (∃ after, table.Step (.reserve newCapacity) after)
      ↔ (table.capacity < newCapacity →
        newCapacity ≤ maxSize ∧ Growth.FitInto (hashes table.entries) newCapacity) := by
  simp only [Step, step, reserve_eq_some_iff]
  by_cases hlt : table.capacity < newCapacity
  · have hends : (∃ after fuel, table.rehash fuel newCapacity = some after)
        ↔ Growth.FitInto (hashes table.entries) newCapacity :=
      exists_comm.trans (rehash_ends_iff (Nat.zero_lt_of_lt hlt) table)
    simp only [forall_true_left, hlt, Nat.not_le.mpr hlt, false_and, false_or, true_and,
      exists_and_left, hends]
  · simp [hlt, Nat.not_lt.mp hlt]

theorem Kept.reserve {pairs : List (Bytes × EntryID)} (h : Kept pairs table) {newCapacity : Nat}
    {after : HashTable} (hstep : table.Step (.reserve newCapacity) after) : Kept pairs after := by
  obtain ⟨fuel, hrun⟩ := hstep
  rcases reserve_eq_some_iff.mp hrun with ⟨-, rfl⟩ | ⟨hlt, -, hrehash⟩
  · exact h
  · exact h.rehash (Nat.zero_lt_of_lt hlt) hrehash

theorem Kept.of_fits {state : Recorded} (h : Kept state.inserted state.table) {growth : Growth}
    (hfits : growth.Fits state) :
    ∃ after, state.table.Step growth.toOp after ∧ Kept (state.inserted ++ growth.inserts) after := by
  cases growth with
  | insert key value => exact h.insert_of_fits hfits value
  | reserve newCapacity =>
      obtain ⟨after, hstep⟩ := (reserve_ends_iff state.table newCapacity).mpr hfits
      refine ⟨after, hstep, ?_⟩
      rw [Growth.inserts, List.append_nil]
      exact h.reserve hstep

theorem lastValue_isSome {pairs : List (Bytes × EntryID)} {pair : Bytes × EntryID}
    (h : pair ∈ pairs) : (lastValue pairs (hashKey pair.1)).isSome = true := by
  rw [lastValue, Option.isSome_map, List.find?_isSome]
  exact ⟨pair, List.mem_reverse.mpr h, decide_eq_true rfl⟩

/-- Every key that is to be found after an insertion takes a slot of its lane. -/
theorem Kept.fits_of_keeps {state : Recorded} (h : Kept state.inserted state.table)
    {growth : Growth} (hkeeps : growth.Keeps state) : growth.Fits state := by
  obtain ⟨after, hstep, hnew, hold⟩ := hkeeps
  cases growth with
  | insert key value =>
      obtain ⟨fuel, hrun⟩ := id hstep
      obtain ⟨grown, result, hgrow, -⟩ := insert_eq_some_iff.mp hrun
      obtain ⟨other, hother, hintact, hcapacity⟩ := h.intact.insert hgrow key value
      obtain rfl := Step.unique hstep hother
      rw [capacity_of_growIfNeeded h.pos hgrow] at hcapacity
      have hfound : (hashes state.table.entries).ndinsert (hashKey key)
          ⊆ hashes after.entries := by
        intro hash hmem
        rcases Multiset.mem_ndinsert.mp hmem with rfl | hmem
        · exact mem_hashes_of_find hintact.pos
            (Option.isSome_of_eq_some (hnew (key, value) List.mem_cons_self))
        · obtain ⟨pair, hpair, rfl⟩ := (h.mem_hashes hash).mp hmem
          exact mem_hashes_of_find hintact.pos (hold pair hpair)
      intro lane
      calc laneLoad (Growth.grownCapacity state.table)
            ((hashes state.table.entries).ndinsert (hashKey key)) lane
          ≤ laneLoad (Growth.grownCapacity state.table) (hashes after.entries) lane :=
            laneLoad_mono _ ((Multiset.le_iff_subset (h.nodup.ndinsert _)).mpr hfound) lane
        _ ≤ laneSize (Growth.grownCapacity state.table) := by
            rw [← hcapacity]
            exact laneLoad_le hintact.pos hintact.settled lane
  | reserve newCapacity => exact (reserve_ends_iff state.table newCapacity).mp ⟨after, hstep⟩

theorem Kept.keeps_iff {state : Recorded} (h : Kept state.inserted state.table) (growth : Growth) :
    growth.Keeps state ↔ growth.Fits state := by
  refine ⟨h.fits_of_keeps, fun hfits => ?_⟩
  obtain ⟨after, hstep, hkept⟩ := h.of_fits hfits
  refine ⟨after, hstep, ?_, fun pair hpair => ?_⟩
  · intro pair hpair
    cases growth with
    | insert key value =>
        obtain rfl := List.mem_singleton.mp hpair
        refine (hkept.find_eq (hashKey key)).trans ?_
        rw [Growth.inserts, lastValue_append, if_pos rfl]
    | reserve newCapacity => cases hpair
  · exact (congrArg Option.isSome (hkept.find_eq (hashKey pair.1))).trans
      (lastValue_isSome (List.mem_append_left _ hpair))

theorem Kept.step {before after : Recorded} (h : Kept before.inserted before.table)
    {growth : Growth} (hfits : growth.Fits before) (hstep : growth.Steps before after) :
    Kept after.inserted after.table := by
  obtain ⟨other, hother, hkept⟩ := h.of_fits hfits
  rw [hstep.2, Step.unique hstep.1 hother]
  exact hkept

/-- **A run of insertions and rehashes keeps every key exactly if the keys always fit.** Each call ends
and leaves every key findable that was inserted by then, if and only if at each call no lane of the
table gets more entries than it has slots. -/
theorem growth_keeps_iff (initialCapacity : Nat) (calls : List Growth) :
    Runs.Along Growth.Steps Growth.Keeps { table := new initialCapacity } calls
      ↔ Runs.Along Growth.Steps Growth.Fits { table := new initialCapacity } calls :=
  Runs.along_iff_of_invariant (fun state => Kept state.inserted state.table)
    (fun _ growth h => h.keeps_iff growth)
    (fun _ _ _ h hfits hstep => h.step hfits hstep) (kept_new initialCapacity) calls

theorem along_of_insertAll {P : Recorded → Growth → Prop} {pairs : List (Bytes × EntryID)}
    {before : Recorded} {calls : List Growth}
    (h : Runs.Along Growth.Steps P before (pairs.map (fun pair => .insert pair.1 pair.2) ++ calls))
    {fuel : Nat} {after : HashTable} (hrun : before.table.insertAll fuel pairs = some after) :
    Runs.Along Growth.Steps P { table := after, inserted := before.inserted ++ pairs } calls := by
  induction pairs generalizing before with
  | nil =>
      cases hrun
      rwa [List.append_nil]
  | cons pair pairs ih =>
      simp only [insertAll, Option.bind_eq_bind, Option.bind_eq_some_iff] at hrun
      obtain ⟨next, hinsert, hrest⟩ := hrun
      have hnext := h.2 { table := next, inserted := before.inserted ++ [pair] } ⟨⟨fuel, hinsert⟩, rfl⟩
      have hlast := ih hnext hrest
      rwa [List.append_assoc, List.singleton_append] at hlast

/-- Two keys whose ideal slots differ only in bits that the mask of 17 slots drops. -/
def crowdedKeys : List (Bytes × EntryID) := [([1], 7), ([2], 8)]

def crowdingCalls : List Growth :=
  crowdedKeys.map (fun pair => .insert pair.1 pair.2) ++ [.reserve 17]

/-- A table of 17 slots has lanes of a single slot, and the second key goes around its own forever. -/
theorem reserve_stuck :
    ¬ Runs.Along Growth.Steps Growth.Keeps { table := new 16 } crowdingCalls := by
  intro h
  have hloads : ((new 16).insertAll 2 crowdedKeys).map (fun table =>
      (table.capacity, laneLoad 17 (hashes table.entries) 0)) = some (16, 2) := by
    decide +kernel
  obtain ⟨table, hrun, htable⟩ := Option.map_eq_some_iff.mp hloads
  obtain ⟨hcapacity, hload⟩ := Prod.mk.inj htable
  obtain ⟨⟨after, hstep, -⟩, -⟩ := along_of_insertAll h hrun
  have hlane := ((reserve_ends_iff table 17).mp ⟨after, hstep⟩ (by rw [hcapacity]; decide)).2 0
  rw [hload] at hlane
  exact absurd hlane (by decide)

end HashTable

end NebulaFS
