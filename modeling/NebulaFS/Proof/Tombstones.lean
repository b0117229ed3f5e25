import Mathlib.Data.Nat.ModEq
import Mathlib.Data.Set.Card
import NebulaFS.Proof.HashTableRuns

/-!
# Runs with removals

A removal leaves a tombstone, which stays on the way of the probes that go over it. An insertion takes
the first slot without a live entry, and that goes wrong in two ways: the key itself is stored behind
the slot and gets a second copy, or the new entry stops there with a smaller probe length than the probe
of another key needs to go on. `Clear` says that the slot is on the way of no such probe, and
`undisturbed_iff` that nothing else goes wrong.
-/

namespace NebulaFS

open MaskedProbe

namespace HashTable

variable {table : HashTable} {entries : List Entry} {hash other : UInt64} {k : Nat}

/-! ### The way of a probe -/

/-- How many steps a probe for the hash takes to the slot. -/
def wayTo (entries : List Entry) (hash : UInt64) (slot : Nat) : Nat :=
  distance entries.length (idealSlot entries.length hash) slot

theorem idealSlot_lt (hn : 0 < entries.length) (hash : UInt64) :
    idealSlot entries.length hash < entries.length :=
  (onLane_idealSlot _ hash).lt hn

theorem length_pos (hk : entries.length = 2 ^ k) : 0 < entries.length := by
  rw [hk]
  exact Nat.two_pow_pos k

theorem wayTo_slotOf (hk : entries.length = 2 ^ k) (hash : UInt64) (d : Nat) :
    wayTo entries hash (slotOf entries hash d) = d % entries.length := by
  rw [wayTo, slotOf_two_pow hk, distance_mod (idealSlot_lt (length_pos hk) hash)]

theorem slotOf_wayTo (hk : entries.length = 2 ^ k) (hash : UInt64) {slot : Nat}
    (hslot : slot < entries.length) : slotOf entries hash (wayTo entries hash slot) = slot := by
  have hlt := idealSlot_lt (length_pos hk) hash
  rw [slotOf_two_pow hk, wayTo, distance, Nat.add_mod_mod, Nat.add_sub_cancel' (by omega),
    Nat.add_mod_right, Nat.mod_eq_of_lt hslot]

/-- Where two probes meet they have come the same way. -/
theorem slotOf_back (hk : entries.length = 2 ^ k) {a b c : Nat}
    (h : slotOf entries hash (a + c) = slotOf entries other (b + c)) :
    slotOf entries hash a = slotOf entries other b := by
  rw [slotOf_two_pow hk, slotOf_two_pow hk] at h ⊢
  rw [← Nat.add_assoc, ← Nat.add_assoc] at h
  exact Nat.ModEq.add_right_cancel' c h

theorem slotOf_ahead {a b : Nat} (h : slotOf entries hash a = slotOf entries other b) (c : Nat) :
    slotOf entries hash (a + c) = slotOf entries other (b + c) := by
  unfold slotOf at h ⊢
  rw [slotAt_add, slotAt_add, h]

/-! ### Where an insertion lands -/

theorem Flight.shove_length (flight : Flight) : flight.shove.newEntry.probeLength
    = min flight.newEntry.probeLength (flight.current.probeLength + 1) + 1 := by
  by_cases hlt : flight.current.probeLength < flight.newEntry.probeLength
  · rw [shove_of_lt hlt, Nat.min_eq_right hlt]
  · rw [shove_of_not_lt hlt, Nat.min_eq_left (Nat.le_succ_of_le (not_lt.mp hlt))]

variable {entry : Entry} {j : Nat}

/-- A probe that starts no earlier goes over the landing slot as before. -/
theorem Vacant.le_landing_length (hk : entries.length = 2 ^ k) (hsettled : Settled entries)
    (hlive : entry.live = true) (h : Vacant entries entry.hash j) {d i : Nat}
    (hopen : Open entries other d) (hi : i < d)
    (hover : slotOf entries other i = slotOf entries entry.hash j) (hij : i ≤ j) :
    i ≤ (Flight.shove^[j] (takeOff entries entry)).newEntry.probeLength := by
  have hn := length_pos hk
  -- after `m` slots the carried entry is as far as the other probe was there
  have hcarried : ∀ m ≤ j,
      m ≤ (Flight.shove^[m] (takeOff entries entry)).newEntry.probeLength + (j - i) := by
    intro m hm
    induction m with
    | zero => exact Nat.zero_le _
    | succ m ih =>
        have hbefore := ih (Nat.le_of_succ_le hm)
        rw [Function.iterate_succ_apply', Flight.shove_length,
          h.current_eq hn hsettled hlive (Nat.le_of_succ_le hm)]
        have hpath : m ≤ (entryAt entries (slotOf entries entry.hash m)).probeLength + (j - i) := by
          by_cases hbehind : m < j - i
          · omega
          · have hmeet : slotOf entries other (m - (j - i)) = slotOf entries entry.hash m := by
              refine @slotOf_back entries other entry.hash k hk _ _ (j - m) ?_
              rwa [show m - (j - i) + (j - m) = i by omega, show m + (j - m) = j by omega]
            have hlength := (hopen (m - (j - i)) (by omega)).2
            rw [hmeet] at hlength
            omega
        omega
  have hland := hcarried j (le_refl j)
  omega

/-- An entry that was carried further does not go over the landing slot. -/
theorem Vacant.not_over (hk : entries.length = 2 ^ k) (h : Vacant entries hash j) {a d i : Nat}
    (ha : a < j) (hda : d ≤ a) (hi : i < d) (hat : slotOf entries other d = slotOf entries hash a) :
    slotOf entries other i ≠ slotOf entries hash j := by
  intro hover
  have hround := slotOf_ahead hover (d - i)
  rw [Nat.add_sub_cancel' (le_of_lt hi), hat] at hround
  have hback : slotOf entries hash 0 = slotOf entries hash (j + (d - i) - a) := by
    refine @slotOf_back entries hash hash k hk _ _ a ?_
    rwa [Nat.zero_add, Nat.sub_add_cancel (by omega)]
  exact h.slotOf_ne (by omega) (by omega) hback

/-- The probe of the entry in `slot` goes over the slot `passed`. -/
def GoesOver (entries : List Entry) (slot passed : Nat) : Prop :=
  wayTo entries (entryAt entries slot).hash passed < wayTo entries (entryAt entries slot).hash slot

/-- A live entry whose probe goes over the first slot that an insertion may take belongs to another
key, and if the hash is new its probe starts no earlier than that of the hash. -/
def Clear (entries : List Entry) (hash : UInt64) : Prop :=
  ∀ j, Vacant entries hash j → ∀ slot < entries.length, (entryAt entries slot).live = true →
    GoesOver entries slot (slotOf entries hash j) →
      (entryAt entries slot).hash ≠ hash
        ∧ (hash ∉ hashes entries →
          wayTo entries (entryAt entries slot).hash (slotOf entries hash j) ≤ j)

theorem Vacant.lt_length (hk : entries.length = 2 ^ k) (h : Vacant entries hash j) :
    j < entries.length :=
  lt_of_lt_of_le (h.lt_laneSize (length_pos hk)) (Nat.sub_le _ _)

theorem Vacant.wayTo_eq (hk : entries.length = 2 ^ k) (h : Vacant entries hash j) :
    wayTo entries hash (slotOf entries hash j) = j := by
  rw [wayTo_slotOf hk, Nat.mod_eq_of_lt (h.lt_length hk)]

theorem Settled.wayTo_le (hk : entries.length = 2 ^ k) (h : Settled entries) {slot : Nat}
    (hslot : slot < entries.length) (hlive : (entryAt entries slot).live = true) :
    wayTo entries (entryAt entries slot).hash slot ≤ (entryAt entries slot).probeLength
      ∧ Open entries (entryAt entries slot).hash
        (wayTo entries (entryAt entries slot).hash slot) :=
  (h slot hslot hlive).distance_le hk

/-- A probe goes over used slots only. -/
theorem Settled.clear_of_untombed (hk : entries.length = 2 ^ k) (h : Settled entries)
    (huntombed : Untombed entries) (hash : UInt64) : Clear entries hash := by
  intro j hvacant slot hslot hlive hover
  have hused := ((h.wayTo_le hk hslot hlive).2 _ hover).1
  rw [slotOf_wayTo hk _ (slotOf_lt (length_pos hk) hash j)] at hused
  have htaken := huntombed _ hused
  rw [hvacant.vacant] at htaken
  cases htaken

section Landing

variable {flight : Flight}

theorem Landing.length_eq (h : Landing entries entry j flight) :
    flight.entries.length = entries.length :=
  h.walked.flying.length_eq

theorem Landing.slotOf_eq (h : Landing entries entry j flight) (hash : UInt64) (i : Nat) :
    slotOf flight.entries hash i = slotOf entries hash i := by
  rw [slotOf, h.length_eq]
  rfl

theorem Landing.wayTo_eq (h : Landing entries entry j flight) (hash : UInt64) (slot : Nat) :
    wayTo flight.entries hash slot = wayTo entries hash slot := by
  rw [wayTo, h.length_eq]
  rfl

theorem Landing.live_eq (h : Landing entries entry j flight) (slot : Nat) :
    (entryAt flight.entries slot).live = (entryAt entries slot).live :=
  h.walked.live_eq slot

/-- An entry stands where it stood, or the slot was taken by one that was carried there. -/
theorem Landing.changed (h : Landing entries entry j flight) (hstart : entry.probeLength = 0)
    (slot : Nat) : entryAt flight.entries slot = entryAt entries slot
      ∨ ∃ a < j, slot = slotOf entries entry.hash a
        ∧ (entryAt entries slot).probeLength < (entryAt flight.entries slot).probeLength
        ∧ (entryAt flight.entries slot).probeLength ≤ a := by
  rcases h.walked.changed slot with hsame | ⟨a, ha, hslot, hlt, hle⟩
  · exact .inl hsame
  · refine .inr ⟨a, ha, hslot, hlt, le_trans hle ?_⟩
    change entry.probeLength + a ≤ a
    rw [hstart, Nat.zero_add]

/-- Nothing but the landing slot itself can close the way of another entry. -/
theorem Landing.settled_land (hk : entries.length = 2 ^ k)
    (hstart : entry.probeLength = 0) (hvacant : Vacant entries entry.hash j)
    (h : Landing entries entry j flight)
    (hkeep : ∀ slot < entries.length, (entryAt entries slot).live = true →
      GoesOver entries slot (slotOf entries entry.hash j) →
        wayTo entries (entryAt entries slot).hash (slotOf entries entry.hash j)
          ≤ flight.newEntry.probeLength) : Settled flight.land := by
  have hk' : flight.entries.length = 2 ^ k := h.length_eq.trans hk
  apply h.walked.flying.settled_land
  intro slot hslot hne hlive
  have hslot' : slot < flight.entries.length := by rwa [h.length_eq]
  obtain ⟨hway, hopen⟩ := h.walked.flying.settled.wayTo_le hk' hslot' hlive
  have hat := slotOf_wayTo hk' (entryAt flight.entries slot).hash hslot'
  refine ⟨_, hat, hway, hopen, ?_⟩
  intro i hi hover
  rw [h.slotOf_eq] at hat hover
  rw [h.slot_eq] at hover
  rw [h.live_eq] at hlive
  rw [h.wayTo_eq] at hi hat hway
  rcases h.changed hstart slot with hsame | ⟨a, ha, hslotEq, -, hle⟩
  · rw [hsame] at hi hover
    have hlt : i < entries.length := lt_trans hi (Nat.mod_lt _ (length_pos hk))
    have hwayOver : wayTo entries (entryAt entries slot).hash (slotOf entries entry.hash j) = i := by
      rw [← hover, wayTo_slotOf hk, Nat.mod_eq_of_lt hlt]
    rw [← hwayOver] at hi ⊢
    exact hkeep slot hslot hlive hi
  · exact absurd hover (hvacant.not_over hk ha (le_trans hway hle) hi (hat.trans hslotEq))

end Landing

theorem Vacant.settled_land (hk : entries.length = 2 ^ k) (hsettled : Settled entries)
    (hlive : entry.live = true) (hstart : entry.probeLength = 0) (h : Vacant entries entry.hash j)
    (hclear : Clear entries entry.hash) (hnew : entry.hash ∉ hashes entries) :
    Settled (Flight.shove^[j] (takeOff entries entry)).land := by
  have hn := length_pos hk
  refine (h.landing hn hsettled hlive).settled_land hk hstart h ?_
  intro slot hslot hliveSlot hover
  have hij := (hclear j h slot hslot hliveSlot hover).2 hnew
  have hopen := (hsettled.wayTo_le hk hslot hliveSlot).2
  exact h.le_landing_length hk hsettled hlive hopen hover
    (slotOf_wayTo hk _ (slotOf_lt hn _ j)) hij

/-! ### What an insertion does -/

variable {value : EntryID}

/-- The walk of an insertion to the first vacant slot. -/
def landingOf (entries : List Entry) (hash : UInt64) (value : EntryID) (j : Nat) : Flight :=
  Flight.shove^[j] (takeOff entries (newEntry hash value))

theorem Vacant.landing_new (hn : 0 < entries.length) (hsettled : Settled entries)
    (h : Vacant entries hash j) (value : EntryID) :
    Landing entries (newEntry hash value) j (landingOf entries hash value j) := by
  have hstart : Vacant entries (newEntry hash value).hash j := h
  exact hstart.landing hn hsettled rfl

/-- The loop takes the vacant slot if it does not meet the hash before. -/
theorem Vacant.place_new (hn : 0 < entries.length) (hsettled : Settled entries)
    (h : Vacant entries hash j)
    (hother : ∀ i < j, (entryAt entries (slotOf entries hash i)).hash ≠ hash) (value : EntryID) :
    place (some (hash, value)) (0 + 1 + j) (takeOff entries (newEntry hash value))
      = some ((landingOf entries hash value j).land, true) := by
  have hstart : Vacant entries (newEntry hash value).hash j := h
  have hknown : ∀ target ∈ some (hash, value), ∀ i < j,
      (entryAt entries (slotOf entries (newEntry hash value).hash i)).hash ≠ target.1 := by
    rintro target ⟨⟩
    exact hother
  rw [hstart.place_eq hn hsettled rfl hknown 0, Flight.land,
    (h.landing_new hn hsettled value).slot_eq]
  rfl

theorem Vacant.stored_new (hn : 0 < entries.length) (hsettled : Settled entries)
    (h : Vacant entries hash j) (value : EntryID) :
    stored (landingOf entries hash value j).land = (hash, value) ::ₘ stored entries := by
  have hlanding := h.landing_new hn hsettled value
  apply hlanding.walked.stored_land
  rw [hlanding.current_eq]
  exact h.vacant

theorem Landing.length_land {flight : Flight} (h : Landing entries entry j flight) :
    flight.land.length = entries.length := by
  rw [Flight.land, List.length_set, h.length_eq]

theorem exists_inserted_of_clear (hk : entries.length = 2 ^ k) (hsettled : Settled entries)
    (hnodup : (hashes entries).Nodup) (hvacant : Vacant entries hash j) (hclear : Clear entries hash)
    (value : EntryID) :
    ∃ fuel result, place (some (hash, value)) fuel (takeOff entries (newEntry hash value)) = some result
      ∧ Inserted entries hash value result := by
  have hn := length_pos hk
  by_cases hmem : hash ∈ hashes entries
  · obtain ⟨slot, hslot, hlive, rfl⟩ := mem_hashes_iff.mp hmem
    -- the vacant slot is not on the way to the stored entry
    have hfar : wayTo entries (entryAt entries slot).hash slot ≤ j := by
      rw [← hvacant.wayTo_eq hk]
      by_contra hlt
      exact (hclear j hvacant slot hslot hlive (not_le.mp hlt)).1 rfl
    have hholds : Holds entries (entryAt entries slot).hash
        (slotOf entries (entryAt entries slot).hash
          (wayTo entries (entryAt entries slot).hash slot)) := by
      rw [slotOf_wayTo hk _ hslot]
      exact ⟨hlive, rfl⟩
    obtain ⟨d, -, hmet⟩ := exists_met hholds fun i hi => hvacant.taken i (lt_of_lt_of_le hi hfar)
    exact ⟨_, _, Met.place_eq (newEntry _ value) hn hsettled rfl hmet value 0,
      inserted_of_met hn hsettled hnodup (slotOf_lt hn _ d) hmet.holds⟩
  · have hstart : Vacant entries (newEntry hash value).hash j := hvacant
    refine ⟨_, _, hvacant.place_new hn hsettled (fun i hi => hvacant.hash_ne hn hmem hi) value, ?_⟩
    refine inserted_of_new hn hsettled hnodup hmem ?_ ?_ (hvacant.stored_new hn hsettled value)
    · exact (hvacant.landing_new hn hsettled value).length_land
    · exact hstart.settled_land hk hsettled rfl rfl hclear hmem

/-! ### What goes wrong otherwise -/

/-- The hash is stored behind the vacant slot: it gets a second copy. -/
theorem Vacant.place_of_behind (hk : entries.length = 2 ^ k) (hsettled : Settled entries)
    (hnodup : (hashes entries).Nodup) (h : Vacant entries hash j) {slot : Nat}
    (hslot : slot < entries.length) (hholds : Holds entries hash slot)
    (hover : j < wayTo entries hash slot) (value : EntryID) :
    place (some (hash, value)) (0 + 1 + j) (takeOff entries (newEntry hash value))
      = some ((landingOf entries hash value j).land, true) := by
  have hn := length_pos hk
  refine h.place_new hn hsettled ?_ value
  intro i hi heq
  have hsame := nodup_hashes_iff.mp hnodup _ (slotOf_lt hn hash i) slot hslot (h.taken i hi)
    hholds.1 (heq.trans hholds.2.symm)
  rw [← hsame, wayTo_slotOf hk] at hover
  have hle := Nat.mod_le i entries.length
  omega

theorem Landing.slotOf_land {flight : Flight} (h : Landing entries entry j flight) (hash : UInt64)
    (i : Nat) : slotOf flight.land hash i = slotOf entries hash i := by
  rw [slotOf, h.length_land]
  rfl

/-- An entry whose probe goes over the landing slot from further back stands where it stood. -/
theorem Landing.stays {flight : Flight} (hk : entries.length = 2 ^ k) (hsettled : Settled entries)
    (hstart : entry.probeLength = 0) (hvacant : Vacant entries entry.hash j)
    (h : Landing entries entry j flight) {slot : Nat} (hslot : slot < entries.length)
    (hlive : (entryAt entries slot).live = true)
    (hbehind : j < wayTo entries (entryAt entries slot).hash slot) :
    entryAt flight.land slot = entryAt entries slot := by
  have hne : slot ≠ flight.slot := by
    rintro rfl
    rw [h.slot_eq] at hlive
    cases hvacant.vacant.symm.trans hlive
  rw [Flight.land, entryAt_set_of_ne hne]
  rcases h.changed hstart slot with hsame | ⟨a, ha, -, hlt, hle⟩
  · exact hsame
  · have hway := (hsettled.wayTo_le hk hslot hlive).1
    omega

/-- The new entry stops the probe of another key that starts earlier. -/
theorem Vacant.findHash_none (hk : entries.length = 2 ^ k) (hsettled : Settled entries)
    (hnodup : (hashes entries).Nodup) (h : Vacant entries hash j) (hnew : hash ∉ hashes entries)
    {slot : Nat} (hslot : slot < entries.length) (hlive : (entryAt entries slot).live = true)
    (hover : GoesOver entries slot (slotOf entries hash j))
    (hearlier : j < wayTo entries (entryAt entries slot).hash (slotOf entries hash j))
    (value : EntryID) :
    findHash (landingOf entries hash value j).land (entryAt entries slot).hash = none := by
  have hn := length_pos hk
  have hlanding := h.landing_new hn hsettled value
  have hstored := h.stored_new hn hsettled value
  generalize landingOf entries hash value j = flight at hlanding hstored ⊢
  have hlength := hlanding.length_land
  have hstays := hlanding.stays hk hsettled rfl h hslot hlive (lt_trans hearlier hover)
  have hnodupAfter : (hashes flight.land).Nodup := by
    rw [hashes, hstored, Multiset.map_cons, Multiset.nodup_cons]
    exact ⟨hnew, hnodup⟩
  rw [findHash, Option.map_eq_none_iff, Option.eq_none_iff_forall_ne_some]
  intro found hprobe
  obtain ⟨d, hd, hholds, -, hpath⟩ := open_of_probeLoop hprobe
  change found = slotOf flight.land (entryAt entries slot).hash d at hd
  -- the probe would find the entry in its only slot, beyond the landing slot
  have hfound : found = slot := by
    refine nodup_hashes_iff.mp hnodupAfter found ?_ slot ?_ hholds.1 ?_ ?_
    · rw [hd]
      exact slotOf_lt (hlength ▸ hn) _ d
    · rwa [hlength]
    · rwa [hstays]
    · rw [hstays, hholds.2]
  have hat : slotOf entries (entryAt entries slot).hash d = slot := by
    rw [← hlanding.slotOf_land, ← hd, hfound]
  have hway : wayTo entries (entryAt entries slot).hash slot ≤ d := by
    have heq := wayTo_slotOf hk (entryAt entries slot).hash d
    rw [hat] at heq
    rw [heq]
    exact Nat.mod_le _ _
  obtain ⟨-, hpass, -⟩ := hpath _ (lt_of_lt_of_le hover hway)
  change _ ≤ (entryAt flight.land (slotOf flight.land (entryAt entries slot).hash _)).probeLength
    at hpass
  have hlandingSlot : flight.slot < flight.entries.length := by
    rw [hlanding.length_eq]
    exact hlanding.walked.flying.slot_lt
  have hland : entryAt flight.land (slotOf entries hash j) = flight.newEntry := by
    have hslotEq : flight.slot = slotOf entries hash j := hlanding.slot_eq
    rw [← hslotEq]
    exact entryAt_set_self hlandingSlot _
  rw [hlanding.slotOf_land, slotOf_wayTo hk _ (slotOf_lt hn hash j), hland] at hpass
  have hcarried : flight.newEntry.probeLength ≤ 0 + j := hlanding.walked.probe_le
  omega

/-! ### What a removal does -/

/-- The key is gone, and the other keys are found as before. -/
structure Removed (table : HashTable) (hash : UInt64) (after : HashTable) : Prop extends Sound after where
  capacity_eq : after.capacity = table.capacity
  find_eq : ∀ other, findHash after.entries other
    = if other = hash then none else findHash table.entries other
  mem_hashes : ∀ other ∈ hashes after.entries, other ∈ hashes table.entries

theorem Sound.removed_of_none (h : Sound table) (hprobe : probe table.entries hash = none) :
    Removed table hash table := by
  refine ⟨h, rfl, ?_, fun _ hmem => hmem⟩
  intro other
  split
  · next heq =>
    subst heq
    rw [findHash, hprobe, Option.map_none]
  · rfl

/-- The tombstone that is left in a slot. -/
def Entry.bury (entry : Entry) : Entry := { entry with tombstone := true, occupied := false }

theorem stored_bury {slot : Nat} (hslot : slot < entries.length)
    (hlive : (entryAt entries slot).live = true) :
    (entryAt entries slot).pair ::ₘ stored (entries.set slot (entryAt entries slot).bury)
      = stored entries := by
  have hburied : ¬ (entryAt entries slot).bury.live = true := Bool.false_ne_true
  have hset := stored_set entries hslot (entryAt entries slot).bury
  rwa [if_pos hlive, if_neg hburied, Multiset.singleton_add, Multiset.zero_add] at hset

/-- The size that is counted down still counts the live slots. -/
theorem size_bury {slot : Nat} (hsize : table.size = (stored table.entries).card)
    (hslot : slot < table.entries.length) (hlive : (entryAt table.entries slot).live = true) :
    table.size - 1
      = (stored (table.entries.set slot (entryAt table.entries slot).bury)).card := by
  have hcard := congrArg Multiset.card (stored_bury hslot hlive)
  rw [Multiset.card_cons, ← hsize] at hcard
  exact Nat.sub_eq_of_eq_add hcard.symm

theorem Sound.removed_of_holds (h : Sound table) {slot : Nat} (hslot : slot < table.entries.length)
    (hholds : Holds table.entries hash slot) :
    Removed table hash
      { entries := table.entries.set slot (entryAt table.entries slot).bury, size := table.size - 1 } := by
  obtain ⟨hlive, rfl⟩ := hholds
  have hsettled : Settled (table.entries.set slot (entryAt table.entries slot).bury) := by
    apply h.settled.replace hslot
    · rfl
    · exact le_refl _
    · exact fun hburied => absurd hburied Bool.false_ne_true
  have hstored := stored_bury hslot hlive
  have hhashes : (entryAt table.entries slot).hash
      ::ₘ hashes (table.entries.set slot (entryAt table.entries slot).bury) = hashes table.entries := by
    rw [hashes, hashes, ← hstored, Multiset.map_cons]
    rfl
  have hnodup := h.nodup
  rw [← hhashes, Multiset.nodup_cons] at hnodup
  have hpos : 0 < (table.entries.set slot (entryAt table.entries slot).bury).length := by
    rw [List.length_set]
    exact h.pos
  refine ⟨⟨hpos, hsettled, hnodup.2, size_bury h.size_eq hslot hlive⟩, List.length_set, ?_, ?_⟩
  · intro other
    apply Option.ext
    intro value
    rw [findHash_eq_some_iff hpos hsettled hnodup.2]
    split
    · next heq =>
      subst heq
      simp only [reduceCtorEq, iff_false]
      intro hmem
      exact hnodup.1 (Multiset.mem_map_of_mem Prod.fst hmem)
    · next hne =>
      rw [findHash_eq_some_iff h.pos h.settled h.nodup, ← hstored, Multiset.mem_cons]
      simp [Entry.pair, hne]
  · intro other hmem
    rw [← hhashes]
    exact Multiset.mem_cons_of_mem hmem

theorem Sound.remove (h : Sound table) (key : Bytes) :
    Removed table (hashKey key) (table.remove key).1
      ∧ ((table.remove key).2 = true ↔ (table.find key).isSome = true) := by
  unfold HashTable.remove find
  cases hprobe : probe table.entries (hashKey key) with
  | none => exact ⟨h.removed_of_none hprobe, by simp⟩
  | some slot =>
      obtain ⟨hslot, hholds⟩ := holds_of_probe h.pos hprobe
      exact ⟨h.removed_of_holds hslot hholds, by simp⟩

/-! ### Runs -/

variable {keys : Set Bytes}

inductive Call (keys : Set Bytes)
  | insert (key : keys) (value : EntryID)
  | remove (key : keys)

def Call.toOp : Call keys → Op
  | .insert key value => .insert key value
  | .remove key => .remove key

def present (keys : Set Bytes) (table : HashTable) : Set Bytes :=
  { key ∈ keys | (table.find key).isSome = true }

/-- The other keys are found as before, and the size counts the keys that are present. -/
def Frames (keys : Set Bytes) (table : HashTable) (key : Bytes) (after : HashTable) : Prop :=
  (∀ other ∈ keys, other ≠ key → after.find other = table.find other)
    ∧ table.size = (present keys table).ncard ∧ after.size = (present keys after).ncard

/-- What the call promises. -/
def Undisturbed (table : HashTable) : Call keys → Prop
  | .insert key value => ∃ after, table.Step (.insert key value) after
      ∧ after.find key = some value ∧ (after.remove key).1.find key = none
      ∧ Frames keys table key after
  | .remove key => ((table.remove key).2 = true ↔ key.1 ∈ present keys table)
      ∧ (table.remove key).1.find key = none ∧ Frames keys table key (table.remove key).1

/-- An insertion that does not grow the table takes a slot that is on the way of no other probe. -/
def Safe (table : HashTable) : Call keys → Prop
  | .insert key _ => table.overloaded = false → Clear table.entries (hashKey key)
  | .remove _ => True

/-- What a run keeps. -/
structure Tidy (keys : Set Bytes) (table : HashTable) : Prop extends Sound table where
  capacity_eq : ∃ k, table.capacity = 2 ^ k
  of_keys : ∀ hash ∈ hashes table.entries, ∃ key ∈ keys, hashKey key = hash

theorem Sound.mem_hashes_iff_find (h : Sound table) :
    hash ∈ hashes table.entries ↔ (findHash table.entries hash).isSome = true := by
  rw [Option.isSome_iff_exists]
  constructor
  · intro hmem
    obtain ⟨pair, hpair, rfl⟩ := Multiset.mem_map.mp hmem
    exact ⟨pair.2, (findHash_eq_some_iff h.pos h.settled h.nodup).mpr hpair⟩
  · rintro ⟨value, hvalue⟩
    exact Multiset.mem_map_of_mem Prod.fst
      ((findHash_eq_some_iff h.pos h.settled h.nodup).mp hvalue)

theorem Tidy.size_eq_ncard (hkeys : keys.InjOn hashKey) (h : Tidy keys table) :
    table.size = (present keys table).ncard := by
  have himage : hashKey '' present keys table = ((hashes table.entries).toFinset : Set UInt64) := by
    ext hash
    rw [Finset.mem_coe, Multiset.mem_toFinset]
    constructor
    · rintro ⟨key, ⟨-, hfind⟩, rfl⟩
      exact h.mem_hashes_iff_find.mpr hfind
    · intro hmem
      obtain ⟨key, hkey, rfl⟩ := h.of_keys hash hmem
      exact ⟨key, ⟨hkey, h.mem_hashes_iff_find.mp hmem⟩, rfl⟩
  have hinj : (present keys table).InjOn hashKey := hkeys.mono (Set.sep_subset _ _)
  calc table.size = (hashes table.entries).card := by
        rw [h.size_eq, hashes, Multiset.card_map]
    _ = (hashes table.entries).toFinset.card := by
        rw [Multiset.toFinset_card_of_nodup h.nodup]
    _ = (hashKey '' present keys table).ncard := by
        rw [himage, Set.ncard_coe_finset]
    _ = (present keys table).ncard := hinj.ncard_image

theorem Tidy.removed (h : Tidy keys table) {after : HashTable} (hremoved : Removed table hash after) :
    Tidy keys after := by
  refine ⟨hremoved.toSound, ?_, ?_⟩
  · rw [hremoved.capacity_eq]
    exact h.capacity_eq
  · intro other hother
    exact h.of_keys other (hremoved.mem_hashes other hother)

theorem Tidy.remove_undisturbed (hkeys : keys.InjOn hashKey) (h : Tidy keys table) (key : keys) :
    table.Undisturbed (.remove key) := by
  obtain ⟨hremoved, hreturns⟩ := h.toSound.remove key.1
  refine ⟨?_, ?_, ?_, h.size_eq_ncard hkeys, (h.removed hremoved).size_eq_ncard hkeys⟩
  · rw [hreturns]
    exact ⟨fun hfind => ⟨key.2, hfind⟩, fun hmem => hmem.2⟩
  · exact (hremoved.find_eq (hashKey key)).trans (if_pos rfl)
  · intro other hother hne
    refine (hremoved.find_eq (hashKey other)).trans (if_neg ?_)
    intro heq
    exact hne (hkeys hother key.2 heq)

/-- Where the table grows there is no tombstone left. -/
theorem Sound.safe_iff_clear (h : Sound table) {fuel : Nat} {grown : HashTable}
    (hgrow : table.growIfNeeded fuel = some grown) (hk : grown.entries.length = 2 ^ k) (hash : UInt64) :
    (table.overloaded = false → Clear table.entries hash) ↔ Clear grown.entries hash := by
  unfold growIfNeeded at hgrow
  split at hgrow
  · next hover =>
    have hfresh := (fresh_rehash (Nat.mul_pos h.pos (by decide)) hgrow).1
    rw [hover]
    refine iff_of_true (fun hroom => absurd hroom (by decide)) ?_
    exact hfresh.settled.clear_of_untombed hk hfresh.untombed hash
  · next hroom =>
    cases hgrow
    rw [Bool.not_eq_true] at hroom
    simp only [hroom, forall_true_left]

/-- An insertion as its two steps find the table. -/
structure Growing (table grown : HashTable) (hash : UInt64) (j : Nat) : Prop extends
    Spacious table grown where
  ends : ∃ fuel, table.growIfNeeded fuel = some grown
  capacity_eq : ∃ k, grown.entries.length = 2 ^ k
  vacant : Vacant grown.entries hash j

theorem Tidy.exists_growing (h : Tidy keys table) (hash : UInt64) :
    ∃ grown j, Growing table grown hash j := by
  obtain ⟨k, hk⟩ := h.capacity_eq
  obtain ⟨fuel, grown, hgrow, k', hk'⟩ := h.toSound.growIfNeeded_ends hk
  have hspacious := h.toSound.spacious hgrow
  obtain ⟨j, hvacant⟩ := hspacious.toSound.exists_vacant hspacious.room hk' hash
  exact ⟨grown, j, hspacious, ⟨fuel, hgrow⟩, ⟨k', hk'⟩, hvacant⟩

theorem Growing.find_eq {grown : HashTable} {key : Bytes} (h : Sound table)
    (hgrowing : Growing table grown hash j) : findHash grown.entries (hashKey key) = table.find key :=
  hgrowing.toSpacious.findHash_eq h (hashKey key)

variable {grown : HashTable}

theorem Tidy.inserted (h : Tidy keys table) (hgrowing : Growing table grown hash j) {key : Bytes}
    (hkey : key ∈ keys) {value : EntryID} {result : List Entry × Bool}
    (hinserted : Inserted grown.entries (hashKey key) value result) :
    Tidy keys { entries := result.1, size := if result.2 then grown.size + 1 else grown.size } := by
  obtain ⟨k, hk⟩ := hgrowing.capacity_eq
  refine ⟨hinserted.sound hgrowing.toSound, ⟨k, hinserted.length_eq.trans hk⟩, ?_⟩
  intro other hother
  rcases (hinserted.mem_hashes other).mp hother with rfl | hmem
  · exact ⟨key, hkey, rfl⟩
  · rw [hashes, hgrowing.stored_eq] at hmem
    exact h.of_keys other hmem

theorem Tidy.exists_insert (hkeys : keys.InjOn hashKey) (h : Tidy keys table) (key : keys)
    (value : EntryID) (hgrowing : Growing table grown (hashKey key) j)
    (hclear : Clear grown.entries (hashKey key)) :
    ∃ after, table.Step (.insert key value) after ∧ Tidy keys after
      ∧ after.find key = some value ∧ (after.remove key).1.find key = none
      ∧ Frames keys table key after := by
  obtain ⟨fuel, hgrow⟩ := hgrowing.ends
  obtain ⟨k, hk⟩ := hgrowing.capacity_eq
  obtain ⟨more, result, hplace, hinserted⟩ := exists_inserted_of_clear hk hgrowing.settled
    hgrowing.nodup hgrowing.vacant hclear value
  have htidy := h.inserted hgrowing key.2 hinserted
  refine ⟨_, step_insert hgrow hplace, htidy, ?_, ?_, ?_, h.size_eq_ncard hkeys,
    htidy.size_eq_ncard hkeys⟩
  · exact (hinserted.find_eq (hashKey key)).trans (if_pos rfl)
  · exact ((htidy.toSound.remove key).1.find_eq (hashKey key)).trans (if_pos rfl)
  · intro other hother hne
    have hhash : hashKey other ≠ hashKey key := fun heq => hne (hkeys hother key.2 heq)
    exact ((hinserted.find_eq (hashKey other)).trans (if_neg hhash)).trans
      (hgrowing.find_eq h.toSound)

/-! ### Where a call keeps its promise the slot was clear -/

/-- A second copy counts twice. -/
theorem Growing.ne_behind (hkeys : keys.InjOn hashKey) {key : Bytes} {after : HashTable}
    (hgrowing : Growing table grown (hashKey key) j) (hstep : table.Step (.insert key value) after)
    (hsize : after.size = (present keys after).ncard) {slot : Nat}
    (hslot : slot < grown.entries.length) (hlive : (entryAt grown.entries slot).live = true)
    (hover : GoesOver grown.entries slot (slotOf grown.entries (hashKey key) j)) :
    (entryAt grown.entries slot).hash ≠ hashKey key := by
  intro heq
  obtain ⟨fuel, hgrow⟩ := hgrowing.ends
  obtain ⟨k, hk⟩ := hgrowing.capacity_eq
  have hvacant := hgrowing.vacant
  have hmem : hashKey key ∈ hashes grown.entries := mem_hashes_iff.mpr ⟨slot, hslot, hlive, heq⟩
  have hbehind : j < wayTo grown.entries (hashKey key) slot := by
    rw [GoesOver, heq, hvacant.wayTo_eq hk] at hover
    exact hover
  have hplace := hvacant.place_of_behind hk hgrowing.settled hgrowing.nodup hslot ⟨hlive, heq⟩ hbehind
    value
  have hafter := Step.unique hstep (step_insert hgrow hplace)
  have hentries := congrArg HashTable.entries hafter
  have hlength : after.entries.length = grown.entries.length := by
    rw [hentries]
    exact (hvacant.landing_new hgrowing.pos hgrowing.settled value).length_land
  have hsubset : hashKey '' present keys after ⊆ ((hashes grown.entries).toFinset : Set UInt64) := by
    rintro _ ⟨other, ⟨-, hfind⟩, rfl⟩
    have hstored := mem_hashes_of_find (hlength ▸ hgrowing.pos) hfind
    rw [hentries, hashes, hvacant.stored_new hgrowing.pos hgrowing.settled, Multiset.map_cons,
      Multiset.mem_cons] at hstored
    rw [Finset.mem_coe, Multiset.mem_toFinset]
    rcases hstored with hsame | hstored
    · rw [hsame]
      exact hmem
    · exact hstored
  have hinj : (present keys after).InjOn hashKey := hkeys.mono (Set.sep_subset _ _)
  have hle : (present keys after).ncard ≤ grown.size := by
    calc (present keys after).ncard = (hashKey '' present keys after).ncard := hinj.ncard_image.symm
      _ ≤ ((hashes grown.entries).toFinset : Set UInt64).ncard :=
          Set.ncard_le_ncard hsubset (Finset.finite_toSet _)
      _ = (hashes grown.entries).card := by
          rw [Set.ncard_coe_finset, Multiset.toFinset_card_of_nodup hgrowing.nodup]
      _ = grown.size := by
          rw [hashes, Multiset.card_map, hgrowing.size_eq]
  have hcount : after.size = grown.size + 1 := congrArg HashTable.size hafter
  omega

/-- A probe that is stopped loses its key. -/
theorem Growing.way_le (h : Tidy keys table) {key : Bytes} {after : HashTable}
    (hgrowing : Growing table grown (hashKey key) j) (hstep : table.Step (.insert key value) after)
    (hframes : ∀ other ∈ keys, other ≠ key → after.find other = table.find other)
    (hnew : hashKey key ∉ hashes grown.entries) {slot : Nat}
    (hslot : slot < grown.entries.length) (hlive : (entryAt grown.entries slot).live = true)
    (hover : GoesOver grown.entries slot (slotOf grown.entries (hashKey key) j)) :
    wayTo grown.entries (entryAt grown.entries slot).hash (slotOf grown.entries (hashKey key) j)
      ≤ j := by
  by_contra hearlier
  obtain ⟨fuel, hgrow⟩ := hgrowing.ends
  obtain ⟨k, hk⟩ := hgrowing.capacity_eq
  have hvacant := hgrowing.vacant
  have hplace := hvacant.place_new hgrowing.pos hgrowing.settled
    (fun i hi => hvacant.hash_ne hgrowing.pos hnew hi) value
  have hentries : after.entries = (landingOf grown.entries (hashKey key) value j).land :=
    congrArg HashTable.entries (Step.unique hstep (step_insert hgrow hplace))
  have hlost := hvacant.findHash_none hk hgrowing.settled hgrowing.nodup hnew hslot hlive hover
    (not_le.mp hearlier) value
  rw [← hentries] at hlost
  have hmem : (entryAt grown.entries slot).hash ∈ hashes grown.entries :=
    mem_hashes_iff.mpr ⟨slot, hslot, hlive, rfl⟩
  have hstored := hmem
  rw [hashes, hgrowing.stored_eq] at hstored
  obtain ⟨other, hother, hhash⟩ := h.of_keys _ hstored
  have hne : other ≠ key := by
    rintro rfl
    rw [hhash] at hnew
    exact hnew hmem
  have hfind := hgrowing.toSound.mem_hashes_iff_find.mp hmem
  rw [← hhash, hgrowing.find_eq h.toSound, ← hframes other hother hne] at hfind
  rw [← hhash] at hlost
  rw [find, show (probe after.entries (hashKey other)).map _ = none from hlost] at hfind
  cases hfind

theorem Tidy.undisturbed_iff_safe (hkeys : keys.InjOn hashKey) (h : Tidy keys table)
    (call : Call keys) : table.Undisturbed call ↔ table.Safe call := by
  cases call with
  | remove key => exact iff_of_true (h.remove_undisturbed hkeys key) trivial
  | insert key value =>
      obtain ⟨grown, j, hgrowing⟩ := h.exists_growing (hashKey key)
      obtain ⟨fuel, hgrow⟩ := hgrowing.ends
      obtain ⟨k, hk⟩ := hgrowing.capacity_eq
      refine Iff.trans ?_ (h.toSound.safe_iff_clear hgrow hk (hashKey key)).symm
      constructor
      · rintro ⟨after, hstep, -, -, hframes, -, hsize⟩ i hvacant slot hslot hlive hover
        have hgrowing' : Growing table grown (hashKey key) i := { hgrowing with vacant := hvacant }
        exact ⟨hgrowing'.ne_behind hkeys hstep hsize hslot hlive hover,
          fun hnew => hgrowing'.way_le h hstep hframes hnew hslot hlive hover⟩
      · intro hclear
        obtain ⟨after, hstep, -, hrest⟩ := h.exists_insert hkeys key value hgrowing hclear
        exact ⟨after, hstep, hrest⟩

theorem Tidy.step (hkeys : keys.InjOn hashKey) (h : Tidy keys table) (call : Call keys)
    (hsafe : table.Safe call) {after : HashTable} (hstep : table.Step call.toOp after) :
    Tidy keys after := by
  cases call with
  | remove key =>
      obtain ⟨fuel, hstep⟩ := hstep
      cases hstep
      exact h.removed (h.toSound.remove key.1).1
  | insert key value =>
      obtain ⟨grown, j, hgrowing⟩ := h.exists_growing (hashKey key)
      obtain ⟨fuel, hgrow⟩ := hgrowing.ends
      obtain ⟨k, hk⟩ := hgrowing.capacity_eq
      have hclear := (h.toSound.safe_iff_clear hgrow hk (hashKey key)).mp hsafe
      obtain ⟨other, hother, htidy, -⟩ := h.exists_insert hkeys key value hgrowing hclear
      rw [Step.unique hstep hother]
      exact htidy

theorem tidy_new (keys : Set Bytes) (hk : 16 ≤ 2 ^ k) : Tidy keys (new (2 ^ k)) := by
  have hbuilt := built_new hk
  refine ⟨hbuilt.toSound, hbuilt.capacity_eq, ?_⟩
  intro hash hmem
  obtain ⟨pair, hpair, -⟩ := (hbuilt.mem_hashes hash).mp hmem
  cases hpair

/-- **The calls of a run disturb no key exactly if every insertion finds its slot clear.** -/
theorem undisturbed_iff (hk : 16 ≤ 2 ^ k) (hkeys : keys.InjOn hashKey) (calls : List (Call keys)) :
    Runs.Along (fun table call after => table.Step call.toOp after)
        (fun table call => table.Undisturbed call) (new (2 ^ k)) calls
      ↔ Runs.Along (fun table call after => table.Step call.toOp after)
        (fun table call => table.Safe call) (new (2 ^ k)) calls :=
  Runs.along_iff_of_invariant (Tidy keys) (fun _ call h => h.undisturbed_iff_safe hkeys call)
    (fun _ call _ h hsafe hstep => h.step hkeys call hsafe hstep) (tidy_new keys hk) calls

/-- Two keys with the same ideal slot in a table of 16 slots. -/
def collidingKeys : Set Bytes := {[1], [17]}

theorem injOn_collidingKeys : collidingKeys.InjOn hashKey := by
  rintro first (rfl | rfl) second (rfl | rfl) heq
  · rfl
  · exact absurd heq (by decide)
  · exact absurd heq (by decide)
  · rfl

def firstKey : collidingKeys := ⟨[1], .inl rfl⟩

def secondKey : collidingKeys := ⟨[17], .inr rfl⟩

theorem safe_insert_of_untombed {table : HashTable} {keys : Set Bytes} (h : Tidy keys table)
    (huntombed : Untombed table.entries) (key : keys) (value : EntryID) :
    table.Safe (.insert key value) := by
  obtain ⟨k, hk⟩ := h.capacity_eq
  exact fun _ => h.settled.clear_of_untombed hk huntombed (hashKey key)

/-- Neither insertion meets a tombstone. -/
theorem undisturbed_insert_insert_remove :
    Runs.Along (fun table call after => table.Step call.toOp after)
      (fun table call => table.Undisturbed call) (new (2 ^ 4))
      [Call.insert firstKey 7, .insert secondKey 8, .remove firstKey] := by
  have hnew : Tidy collidingKeys (new (2 ^ 4)) := tidy_new collidingKeys (by decide)
  have hfirst : (new (2 ^ 4)).Safe (.insert firstKey 7) :=
    safe_insert_of_untombed hnew (built_new (by decide)).untombed firstKey 7
  refine (undisturbed_iff (by decide) injOn_collidingKeys _).mpr
    ⟨hfirst, fun table hstep => ⟨?_, fun _ _ => ⟨trivial, fun _ _ => trivial⟩⟩⟩
  obtain ⟨after, hafter, hbuilt⟩ := (built_new (k := 4) (by decide)).insert firstKey.1 7
  have huntombed : Untombed table.entries := by
    rw [Step.unique hstep hafter]
    exact hbuilt.untombed
  exact safe_insert_of_untombed (hnew.step injOn_collidingKeys _ hfirst hstep) huntombed secondKey 8

/-- The second key is stored behind the tombstone of the first and gets another copy there: after its
removal it is still found. -/
theorem disturbed_overwrite :
    ¬ Runs.Along (fun table call after => table.Step call.toOp after)
      (fun table call => table.Undisturbed call) (new (2 ^ 4))
      [Call.insert firstKey 7, .insert secondKey 8, .remove firstKey, .insert secondKey 9] := by
  intro h
  have hrun : (((new (2 ^ 4)).insert 2 firstKey 7).bind fun table =>
      (table.insert 2 secondKey 8).bind fun table =>
        ((table.remove firstKey).1.insert 2 secondKey 9).map fun table =>
          (table.remove secondKey).1.find secondKey) = some (some 8) := by
    decide +kernel
  obtain ⟨first, hfirst, hrun⟩ := Option.bind_eq_some_iff.mp hrun
  obtain ⟨second, hsecond, hrun⟩ := Option.bind_eq_some_iff.mp hrun
  obtain ⟨last, hlast, hfound⟩ := Option.map_eq_some_iff.mp hrun
  obtain ⟨-, h⟩ := h.2 first ⟨2, hfirst⟩
  obtain ⟨-, h⟩ := h second ⟨2, hsecond⟩
  obtain ⟨⟨after, hafter, -, hnone, -⟩, -⟩ := h (second.remove firstKey).1 ⟨0, rfl⟩
  have hsame : after = last := Step.unique hafter ⟨2, hlast⟩
  rw [hsame, hfound] at hnone
  cases hnone

end HashTable

end NebulaFS
