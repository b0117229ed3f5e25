import Mathlib.Data.Finset.Card
import NebulaFS.Proof.ProbeWalk

/-!
# Putting an entry into the table

An entry whose hash is not stored ends at the first slot of its probe that no live entry takes
(`Landing`), and the table is settled afterwards unless that slot is a tombstone that let a probe go
further than the entry does. A probe goes around one lane of the table, so there is such a slot exactly
if the lane has room (`exists_vacant_iff`), and a rehash ends exactly if no lane of the new table gets
more entries than it has slots (`rehash_ends_iff`).
-/

namespace NebulaFS

open MaskedProbe

namespace HashTable

variable {entries : List Entry} {known : Option (UInt64 × EntryID)} {entry : Entry}

/-- The start of the loop. -/
def takeOff (entries : List Entry) (entry : Entry) : Flight :=
  { entries := entries, slot := idealSlot entries.length entry.hash, newEntry := entry }

theorem flying_takeOff (hn : 0 < entries.length) (hsettled : Settled entries)
    (hlive : entry.live = true) : Flying entries.length (takeOff entries entry) where
  length_eq := rfl
  slot_lt := (onLane_idealSlot _ _).lt hn
  settled := hsettled
  live := hlive
  reaches := ⟨0, rfl, Nat.zero_le _, fun _ hi => absurd hi (Nat.not_lt_zero _)⟩

/-- The first slot of the probe without a live entry. -/
structure Vacant (entries : List Entry) (hash : UInt64) (j : Nat) : Prop where
  vacant : (entryAt entries (slotOf entries hash j)).live = false
  taken : ∀ i < j, (entryAt entries (slotOf entries hash i)).live = true

theorem exists_vacant {hash : UInt64} {i : Nat}
    (h : (entryAt entries (slotOf entries hash i)).live = false) : ∃ j, Vacant entries hash j := by
  classical
  have hex : ∃ i, (entryAt entries (slotOf entries hash i)).live = false := ⟨i, h⟩
  refine ⟨Nat.find hex, Nat.find_spec hex, ?_⟩
  intro k hk
  exact Bool.eq_true_of_not_eq_false (Nat.find_min hex hk)

/-- A probe that came back to a slot would not get to the vacant one. -/
theorem Vacant.slotOf_ne {hash : UInt64} {j : Nat} (h : Vacant entries hash j) {i k : Nat}
    (hik : i < k) (hkj : k ≤ j) : slotOf entries hash i ≠ slotOf entries hash k := by
  intro heq
  have hshift : slotOf entries hash (i + (j - k)) = slotOf entries hash j := by
    rw [slotOf, slotAt_add]
    change slotAt entries.length (slotOf entries hash i) (j - k) = _
    rw [heq]
    change slotAt entries.length (slotAt entries.length _ k) (j - k) = _
    rw [← slotAt_add, Nat.add_sub_cancel' hkj]
    rfl
  have htaken := h.taken (i + (j - k)) (by omega)
  rw [hshift, h.vacant] at htaken
  cases htaken

/-- It is met on the first way around the lane. -/
theorem Vacant.lt_laneSize {hash : UInt64} {j : Nat} (h : Vacant entries hash j)
    (hn : 0 < entries.length) : j < laneSize entries.length := by
  by_contra hle
  apply h.slotOf_ne (laneSize_pos hn) (not_lt.mp hle)
  exact (slotAt_laneSize hn (onLane_idealSlot _ hash)).symm

/-- The state in which the loop meets the vacant slot. -/
structure Landing (entries : List Entry) (entry : Entry) (j : Nat) (flight : Flight) : Prop where
  walked : Walked entries.length (takeOff entries entry) j flight
  slot_eq : flight.slot = slotOf entries entry.hash j
  current_eq : flight.current = entryAt entries (slotOf entries entry.hash j)

/-- The slots ahead are as they were. -/
theorem Vacant.current_eq (hn : 0 < entries.length) (hsettled : Settled entries)
    (hlive : entry.live = true) {j : Nat} (h : Vacant entries entry.hash j) {i : Nat} (hi : i ≤ j) :
    (Flight.shove^[i] (takeOff entries entry)).current
      = entryAt entries (slotOf entries entry.hash i) := by
  have hwalked := walked_iterate (flying_takeOff hn hsettled hlive) i
    fun k hk => h.taken k (lt_of_lt_of_le hk hi)
  rw [Flight.current, hwalked.slot_eq]
  apply hwalked.untouched
  intro k hk
  exact (h.slotOf_ne hk hi).symm

theorem Vacant.landing (hn : 0 < entries.length) (hsettled : Settled entries)
    (hlive : entry.live = true) {j : Nat} (h : Vacant entries entry.hash j) :
    Landing entries entry j (Flight.shove^[j] (takeOff entries entry)) := by
  have hwalked := walked_iterate (flying_takeOff hn hsettled hlive) j h.taken
  exact ⟨hwalked, hwalked.slot_eq, h.current_eq hn hsettled hlive (le_refl j)⟩

theorem Vacant.place_eq (hn : 0 < entries.length) (hsettled : Settled entries)
    (hlive : entry.live = true) {j : Nat} (h : Vacant entries entry.hash j)
    (hknown : ∀ target ∈ known, ∀ i < j,
      (entryAt entries (slotOf entries entry.hash i)).hash ≠ target.1) (fuel : Nat) :
    place known (fuel + 1 + j) (takeOff entries entry)
      = some ((Flight.shove^[j] (takeOff entries entry)).entries.set
          (slotOf entries entry.hash j)
          (Flight.shove^[j] (takeOff entries entry)).newEntry, true) := by
  have hlanding := h.landing hn hsettled hlive
  rw [place_iterate j (fuel + 1), place_of_not_live, hlanding.slot_eq]
  · rw [hlanding.current_eq]
    exact h.vacant
  · intro i hi
    rw [h.current_eq hn hsettled hlive (le_of_lt hi)]
    exact h.taken i hi
  · intro i hi target htarget
    rw [h.current_eq hn hsettled hlive (le_of_lt hi)]
    exact hknown target htarget i hi

/-- A hash that is not stored is not met. -/
theorem Vacant.hash_ne {hash other : UInt64} (hn : 0 < entries.length) {j : Nat}
    (h : Vacant entries hash j) (hother : other ∉ hashes entries) {i : Nat} (hi : i < j) :
    (entryAt entries (slotOf entries hash i)).hash ≠ other := by
  intro heq
  apply hother
  rw [mem_hashes_iff]
  exact ⟨slotOf entries hash i, slotOf_lt hn hash i, h.taken i hi, heq⟩

/-! ### After the landing -/

/-- The table with the carried entry in the slot in hand. -/
def Flight.land (flight : Flight) : List Entry := flight.entries.set flight.slot flight.newEntry

/-- No slot was emptied by a removal. -/
def Untombed (entries : List Entry) : Prop :=
  ∀ slot, (entryAt entries slot).used = true → (entryAt entries slot).live = true

variable {flight : Flight} {n j : Nat}

theorem Flying.settled_land (h : Flying n flight)
    (hothers : ∀ other < n, other ≠ flight.slot → (entryAt flight.entries other).live = true →
      ∃ d, slotOf flight.entries (entryAt flight.entries other).hash d = other
        ∧ d ≤ (entryAt flight.entries other).probeLength
        ∧ Open flight.entries (entryAt flight.entries other).hash d
        ∧ ∀ i < d, slotOf flight.entries (entryAt flight.entries other).hash i = flight.slot →
          i ≤ flight.newEntry.probeLength) : Settled flight.land := by
  obtain ⟨rfl, hslot, hsettled, hnew, d, hd, hle, hopen⟩ := h
  have hused := Entry.used_of_live hnew
  apply settled_set hslot
  · intro other hother hne hlive
    obtain ⟨d, hd, hle, hopen, hkeep⟩ := hothers other hother hne hlive
    exact ⟨d, hd, hle, hopen, fun i hi heq => ⟨hused, hkeep i hi heq⟩⟩
  · intro _
    refine ⟨d, by rw [slotOf_set, hd], hle, hopen.set hslot ?_⟩
    intro i hi _
    exact ⟨hused, le_trans (le_of_lt hi) hle⟩

/-- No probe goes over a slot that was never used. -/
theorem Flying.settled_land_of_unused (h : Flying n flight) (hunused : flight.current.used = false) :
    Settled flight.land := by
  apply h.settled_land
  intro other hother hne hlive
  rw [← h.length_eq] at hother
  obtain ⟨d, hd, hle, hopen⟩ := h.settled other hother hlive
  refine ⟨d, hd, hle, hopen, ?_⟩
  intro i hi heq
  have hused := (hopen i hi).1
  rw [heq] at hused
  cases hunused.symm.trans hused

theorem Walked.stored_land {start : Flight} (h : Walked n start j flight)
    (hvacant : flight.current.live = false) :
    stored flight.land = start.newEntry.pair ::ₘ stored start.entries := by
  have hset := stored_set flight.entries (h.flying.length_eq ▸ h.flying.slot_lt) flight.newEntry
  rw [if_pos h.flying.live, if_neg] at hset
  · rw [Multiset.zero_add] at hset
    exact hset.trans h.stored_eq
  · change ¬ flight.current.live = true
    rw [hvacant]
    decide

theorem Walked.untombed_land {start : Flight} (h : Walked n start j flight)
    (huntombed : Untombed start.entries) : Untombed flight.land := by
  intro slot hused
  unfold Flight.land at hused ⊢
  by_cases heq : slot = flight.slot
  · rw [heq, entryAt_set_self (h.flying.length_eq ▸ h.flying.slot_lt)]
    exact h.flying.live
  · rw [entryAt_set_of_ne heq] at hused ⊢
    rw [h.used_eq] at hused
    rw [h.live_eq]
    exact huntombed slot hused

/-- The probe lengths stay below the capacity. -/
theorem Walked.length_land {start : Flight} (h : Walked n start j flight)
    (hstart : start.newEntry.probeLength = 0) (hj : j < n)
    (hlengths : ∀ slot, (entryAt start.entries slot).probeLength < n) (slot : Nat) :
    (entryAt flight.land slot).probeLength < n := by
  have hcarried := h.probe_le
  rw [hstart, Nat.zero_add] at hcarried
  unfold Flight.land
  by_cases heq : slot = flight.slot
  · rw [heq, entryAt_set_self (h.flying.length_eq ▸ h.flying.slot_lt)]
    exact lt_of_le_of_lt hcarried hj
  · rw [entryAt_set_of_ne heq]
    rcases h.changed slot with hsame | ⟨k, hk, -, -, hle⟩
    · rw [hsame]
      exact hlengths slot
    · omega

theorem Untombed.used_eq_false (h : Untombed entries) {slot : Nat}
    (hvacant : (entryAt entries slot).live = false) : (entryAt entries slot).used = false := by
  rw [Bool.eq_false_iff]
  intro hused
  cases hvacant.symm.trans (h slot hused)

/-- An entry of a new hash in a table without tombstones. -/
structure Grown (entries : List Entry) (entry : Entry) (after : List Entry) : Prop where
  length_eq : after.length = entries.length
  settled : Settled after
  untombed : Untombed after
  stored_eq : stored after = entry.pair ::ₘ stored entries
  probe_lt : (∀ slot, (entryAt entries slot).probeLength < entries.length) →
    ∀ slot, (entryAt after slot).probeLength < after.length

theorem Vacant.grown (known : Option (UInt64 × EntryID)) (hn : 0 < entries.length)
    (hsettled : Settled entries) (huntombed : Untombed entries) (hlive : entry.live = true)
    (hstart : entry.probeLength = 0)
    (h : Vacant entries entry.hash j) (hknown : ∀ target ∈ known, target.1 ∉ hashes entries) :
    ∃ after, (∀ fuel, place known (fuel + 1 + j) (takeOff entries entry) = some (after, true))
      ∧ Grown entries entry after := by
  have hlanding := h.landing hn hsettled hlive
  have hvacant : (Flight.shove^[j] (takeOff entries entry)).current.live = false := by
    rw [hlanding.current_eq]
    exact h.vacant
  have hunused : (Flight.shove^[j] (takeOff entries entry)).current.used = false := by
    rw [hlanding.current_eq]
    exact huntombed.used_eq_false h.vacant
  have hlength : (Flight.shove^[j] (takeOff entries entry)).land.length = entries.length := by
    rw [Flight.land, List.length_set, hlanding.walked.flying.length_eq]
  refine ⟨(Flight.shove^[j] (takeOff entries entry)).land, ?_, hlength, ?_, ?_, ?_, ?_⟩
  · intro fuel
    rw [h.place_eq hn hsettled hlive (fun target htarget i hi => h.hash_ne hn (hknown target htarget) hi)
      fuel, Flight.land, hlanding.slot_eq]
  · exact hlanding.walked.flying.settled_land_of_unused hunused
  · exact hlanding.walked.untombed_land huntombed
  · exact hlanding.walked.stored_land hvacant
  · intro hlengths
    rw [hlength]
    have hj : j < entries.length := lt_of_lt_of_le (h.lt_laneSize hn) (Nat.sub_le _ _)
    exact hlanding.walked.length_land hstart hj hlengths

/-! ### Overwriting -/

/-- While the probe lengths let it, the loop only counts. -/
theorem iterate_shove_of_open (hlength : entry.probeLength = 0) {d : Nat}
    (hopen : ∀ i < d, i ≤ (entryAt entries (slotOf entries entry.hash i)).probeLength) :
    Flight.shove^[d] (takeOff entries entry)
      = { entries := entries, slot := slotOf entries entry.hash d
          newEntry := { entry with probeLength := d } } := by
  induction d with
  | zero =>
      have hentry : { entry with probeLength := 0 } = entry := by rw [← hlength]
      rw [Function.iterate_zero_apply, hentry]
      rfl
  | succ d ih =>
      rw [Function.iterate_succ_apply', ih fun i hi => hopen i (Nat.lt_succ_of_lt hi)]
      rw [Flight.shove_of_not_lt (not_lt.mpr (hopen d (Nat.lt_succ_self d))), slotOf_succ]

/-- The hash is met before the probe leaves the live slots. -/
structure Met (entries : List Entry) (hash : UInt64) (d : Nat) : Prop where
  taken : ∀ i < d, (entryAt entries (slotOf entries hash i)).live = true
    ∧ (entryAt entries (slotOf entries hash i)).hash ≠ hash
  holds : Holds entries hash (slotOf entries hash d)

theorem exists_met {hash : UInt64} {e : Nat} (hholds : Holds entries hash (slotOf entries hash e))
    (hlive : ∀ i < e, (entryAt entries (slotOf entries hash i)).live = true) :
    ∃ d ≤ e, Met entries hash d := by
  classical
  have hex : ∃ i, Holds entries hash (slotOf entries hash i) := ⟨e, hholds⟩
  have hle : Nat.find hex ≤ e := Nat.find_min' hex hholds
  refine ⟨Nat.find hex, hle, ?_, Nat.find_spec hex⟩
  intro i hi
  have htaken := hlive i (lt_of_lt_of_le hi hle)
  exact ⟨htaken, fun hhash => Nat.find_min hex hi ⟨htaken, hhash⟩⟩

/-- Without tombstones a stored hash is met. -/
theorem exists_met_of_untombed {hash : UInt64} (hsettled : Settled entries)
    (huntombed : Untombed entries) (hmem : hash ∈ hashes entries) : ∃ d, Met entries hash d := by
  obtain ⟨slot, hslot, hlive, rfl⟩ := mem_hashes_iff.mp hmem
  obtain ⟨e, he, -, hopen⟩ := hsettled slot hslot hlive
  have hholds : Holds entries (entryAt entries slot).hash
      (slotOf entries (entryAt entries slot).hash e) := by
    rw [he]
    exact ⟨hlive, rfl⟩
  obtain ⟨d, -, hmet⟩ := exists_met hholds fun i hi => huntombed _ (hopen i hi).1
  exact ⟨d, hmet⟩

theorem Settled.open_of_met (h : Settled entries) (hn : 0 < entries.length) {hash : UInt64} {d : Nat}
    (hmet : Met entries hash d) : Open entries hash d := by
  obtain ⟨hlive, hhash⟩ := hmet.holds
  obtain ⟨e, he, -, hopen⟩ := h (slotOf entries hash d) (slotOf_lt hn hash d) hlive
  rw [hhash] at he hopen
  apply hopen.mono
  by_contra hlt
  have hearlier := hmet.taken e (Nat.lt_of_not_le hlt)
  rw [he] at hearlier
  exact hearlier.2 hhash

theorem Met.place_eq (entry : Entry) (hn : 0 < entries.length) (hsettled : Settled entries)
    (hlength : entry.probeLength = 0) {d : Nat} (h : Met entries entry.hash d) (value : EntryID) (fuel : Nat) :
    place (some (entry.hash, value)) (fuel + 1 + d) (takeOff entries entry)
      = some (entries.set (slotOf entries entry.hash d)
          { entryAt entries (slotOf entries entry.hash d) with entryId := value }, false) := by
  have hopen := hsettled.open_of_met hn h
  have hwalk : ∀ i ≤ d, Flight.shove^[i] (takeOff entries entry)
      = { entries := entries, slot := slotOf entries entry.hash i
          newEntry := { entry with probeLength := i } } := by
    intro i hi
    exact iterate_shove_of_open hlength fun k hk => (hopen k (lt_of_lt_of_le hk hi)).2
  rw [place_iterate d (fuel + 1), hwalk d (le_refl d)]
  · refine place_of_match ?_ ?_ fuel
    · exact h.holds.1
    · exact h.holds.2
  · intro i hi
    rw [hwalk i (le_of_lt hi)]
    exact (h.taken i hi).1
  · rintro i hi target ⟨⟩
    rw [hwalk i (le_of_lt hi)]
    exact (h.taken i hi).2

/-! ### The table as a map -/

/-- The value is stored under the hash, and under the other hashes what was there before. -/
structure Inserted (entries : List Entry) (hash : UInt64) (value : EntryID)
    (result : List Entry × Bool) : Prop where
  length_eq : result.1.length = entries.length
  settled : Settled result.1
  nodup : (hashes result.1).Nodup
  find_eq : ∀ other, findHash result.1 other
    = if other = hash then some value else findHash entries other
  mem_hashes : ∀ other, other ∈ hashes result.1 ↔ other = hash ∨ other ∈ hashes entries
  card_eq : (stored result.1).card
    = if result.2 = true then (stored entries).card + 1 else (stored entries).card

variable {hash : UInt64} {value : EntryID} {after : List Entry}

theorem inserted_of_new (hn : 0 < entries.length) (hsettled : Settled entries)
    (hnodup : (hashes entries).Nodup) (hnew : hash ∉ hashes entries)
    (hlength : after.length = entries.length) (hafter : Settled after)
    (hstored : stored after = (hash, value) ::ₘ stored entries) :
    Inserted entries hash value (after, true) := by
  have hhashes : hashes after = hash ::ₘ hashes entries := by
    rw [hashes, hstored, Multiset.map_cons]
    rfl
  have hnodupAfter : (hashes after).Nodup := by
    rw [hhashes, Multiset.nodup_cons]
    exact ⟨hnew, hnodup⟩
  have hnAfter : 0 < after.length := by rwa [hlength]
  refine ⟨hlength, hafter, hnodupAfter, ?_, ?_, ?_⟩
  · intro other
    apply Option.ext
    intro found
    rw [findHash_eq_some_iff hnAfter hafter hnodupAfter, hstored, Multiset.mem_cons]
    split
    · next heq =>
      subst heq
      have hnot : (other, found) ∉ stored entries := by
        intro hmem
        exact hnew (Multiset.mem_map_of_mem Prod.fst hmem)
      simp [hnot, eq_comm]
    · next hne =>
      rw [findHash_eq_some_iff hn hsettled hnodup]
      simp [hne]
  · intro other
    rw [hhashes, Multiset.mem_cons]
  · rw [hstored, Multiset.card_cons, if_pos rfl]

theorem inserted_of_met (hn : 0 < entries.length) (hsettled : Settled entries)
    (hnodup : (hashes entries).Nodup) {slot : Nat} (hslot : slot < entries.length)
    (hholds : Holds entries hash slot) :
    Inserted entries hash value
      (entries.set slot { entryAt entries slot with entryId := value }, false) := by
  obtain ⟨hlive, rfl⟩ := hholds
  have hnewLive : ({ entryAt entries slot with entryId := value } : Entry).live = true := hlive
  have hafter : Settled (entries.set slot { entryAt entries slot with entryId := value }) :=
    hsettled.replace hslot (Entry.used_of_live hnewLive) (le_refl _)
      fun _ => hsettled slot hslot hlive
  have hset := stored_set entries hslot { entryAt entries slot with entryId := value }
  rw [if_pos hlive, if_pos hnewLive, Multiset.singleton_add, Multiset.singleton_add] at hset
  have hhashes : hashes (entries.set slot { entryAt entries slot with entryId := value })
      = hashes entries := by
    have hmap := congrArg (Multiset.map Prod.fst) hset
    rw [Multiset.map_cons, Multiset.map_cons] at hmap
    exact (Multiset.cons_inj_right _).mp hmap
  have hlength : (entries.set slot { entryAt entries slot with entryId := value }).length
      = entries.length := List.length_set
  have hnAfter : 0 < (entries.set slot { entryAt entries slot with entryId := value }).length := by
    rwa [hlength]
  have hnodupAfter := hnodup
  rw [← hhashes] at hnodupAfter
  refine ⟨hlength, hafter, hnodupAfter, ?_, ?_, ?_⟩
  · intro other
    by_cases heq : other = (entryAt entries slot).hash
    · rw [if_pos heq, findHash_eq_some_iff hnAfter hafter hnodupAfter, mem_stored_iff, heq]
      refine ⟨slot, by rwa [hlength], ?_⟩
      rw [entryAt_set_self hslot]
      exact ⟨hlive, rfl⟩
    · rw [if_neg heq]
      apply Option.ext
      intro found
      have hmem := congrArg (fun pairs => (other, found) ∈ pairs) hset
      rw [findHash_eq_some_iff hnAfter hafter hnodupAfter, findHash_eq_some_iff hn hsettled hnodup]
      simpa [Entry.pair, heq] using hmem
  · intro other
    rw [hhashes]
    constructor
    · exact Or.inr
    · rintro (rfl | hmem)
      · exact mem_hashes_iff.mpr ⟨slot, hslot, hlive, rfl⟩
      · exact hmem
  · have hcard := congrArg Multiset.card hset
    rw [Multiset.card_cons, Multiset.card_cons] at hcard
    rw [if_neg Bool.false_ne_true]
    exact Nat.add_right_cancel hcard

end HashTable

end NebulaFS
