import Mathlib.Data.Finset.Card
import Mathlib.Data.Multiset.Range
import Mathlib.Order.Interval.Finset.Nat
import NebulaFS.Proof.Placement

/-!
# Lanes and rehashing

A probe for a hash stays in one lane of the table (`laneOf`), so a settled table has in every lane as
many live slots as there are stored hashes of that lane. Counting gives when a probe meets a vacant slot
(`exists_vacant_iff`), and from that when a rehash ends.
-/

namespace NebulaFS

open MaskedProbe

namespace HashTable

variable {entries : List Entry} {hash : UInt64}

def laneOf (n : Nat) (hash : UInt64) : Nat := idealSlot n hash / laneSize n

/-- How many of the hashes belong to a lane. -/
def laneLoad (n : Nat) (stored : Multiset UInt64) (lane : Nat) : Nat :=
  stored.countP fun hash => laneOf n hash = lane

def laneSlots (n lane : Nat) : Finset Nat := (Finset.range n).filter fun slot => slot / laneSize n = lane

theorem slotOf_div (hn : 0 < entries.length) (hash : UInt64) (j : Nat) :
    slotOf entries hash j / laneSize entries.length = laneOf entries.length hash :=
  slotAt_div hn (onLane_idealSlot _ hash) j

theorem exists_slotOf {slot : Nat} (hn : 0 < entries.length)
    (h : slot / laneSize entries.length = laneOf entries.length hash) :
    ∃ j, slotOf entries hash j = slot := by
  obtain ⟨j, -, hj⟩ := exists_slotAt hn (onLane_idealSlot _ hash) h
  exact ⟨j, hj⟩

/-- A lane that a hash belongs to lies in the table with all its slots. -/
theorem card_laneSlots {n : Nat} (hn : 0 < n) (hash : UInt64) :
    (laneSlots n (laneOf n hash)).card = laneSize n := by
  have hpos := laneSize_pos hn
  have hlast : laneSize n * laneOf n hash + (laneSize n - 1) < n := by
    have hdiv : (laneSize n * laneOf n hash + (laneSize n - 1)) / laneSize n
        = idealSlot n hash / laneSize n := by
      rw [Nat.mul_add_div hpos, Nat.div_eq_of_lt (by omega), Nat.add_zero]
      rfl
    obtain ⟨j, -, hj⟩ := exists_slotAt hn (onLane_idealSlot n hash) hdiv
    rw [← hj]
    exact (onLane_slotAt (onLane_idealSlot n hash) j).lt hn
  have hslots : laneSlots n (laneOf n hash)
      = Finset.Ico (laneSize n * laneOf n hash) (laneSize n * laneOf n hash + laneSize n) := by
    ext slot
    rw [laneSlots, Finset.mem_filter, Finset.mem_range, Finset.mem_Ico, Nat.div_eq_iff hpos,
      Nat.mul_comm (laneOf n hash)]
    omega
  rw [hslots, Nat.card_Ico, Nat.add_sub_cancel_left]

theorem stored_eq_map_range (entries : List Entry) :
    stored entries = ((Multiset.range entries.length).filter
      fun slot => (entryAt entries slot).live = true).map fun slot => (entryAt entries slot).pair := by
  have hentries : entries = (List.range entries.length).map (entryAt entries) := by
    apply List.ext_getElem
    · simp
    · intro slot h _
      simp [entryAt, h]
  conv_lhs => rw [stored, hentries]
  rw [List.filter_map, List.map_map, Multiset.range, Multiset.filter_coe, Multiset.map_coe]
  congr 2
  apply List.filter_congr
  intro slot _
  simp

/-- A live slot and its hash are in the same lane. -/
theorem laneLoad_eq_card (hn : 0 < entries.length) (h : Settled entries) (lane : Nat) :
    laneLoad entries.length (hashes entries) lane
      = ((laneSlots entries.length lane).filter
        fun slot => (entryAt entries slot).live = true).card := by
  rw [laneLoad, hashes, stored_eq_map_range, Multiset.map_map, Multiset.countP_map,
    Multiset.filter_filter, laneSlots, Finset.filter_filter]
  change _ = Multiset.card (Multiset.filter _ (Multiset.range entries.length))
  congr 1
  apply Multiset.filter_congr
  intro slot hslot
  rw [Multiset.mem_range] at hslot
  apply and_congr_left
  intro hlive
  obtain ⟨d, hd, -, -⟩ := h slot hslot hlive
  have hlane := slotOf_div hn (entryAt entries slot).hash d
  rw [hd] at hlane
  rw [hlane]
  rfl

theorem laneLoad_le (hn : 0 < entries.length) (h : Settled entries) (lane : Nat) :
    laneLoad entries.length (hashes entries) lane ≤ laneSize entries.length := by
  have hpos := laneSize_pos hn
  have hsubset : laneSlots entries.length lane
      ⊆ Finset.Ico (laneSize entries.length * lane)
        (laneSize entries.length * lane + laneSize entries.length) := by
    intro slot hslot
    rw [laneSlots, Finset.mem_filter, Nat.div_eq_iff hpos, Nat.mul_comm lane] at hslot
    rw [Finset.mem_Ico]
    omega
  calc laneLoad entries.length (hashes entries) lane
      = ((laneSlots entries.length lane).filter
          fun slot => (entryAt entries slot).live = true).card := laneLoad_eq_card hn h lane
    _ ≤ (laneSlots entries.length lane).card := Finset.card_filter_le _ _
    _ ≤ laneSize entries.length := by
        rw [← Nat.add_sub_cancel_left (laneSize entries.length * lane) (laneSize entries.length),
          ← Nat.card_Ico]
        exact Finset.card_le_card hsubset

/-- A probe meets a vacant slot exactly if its lane has room. -/
theorem exists_vacant_iff (hn : 0 < entries.length) (h : Settled entries) (hash : UInt64) :
    (∃ j, (entryAt entries (slotOf entries hash j)).live = false)
      ↔ laneLoad entries.length (hashes entries) (laneOf entries.length hash)
        < laneSize entries.length := by
  rw [laneLoad_eq_card hn h, ← card_laneSlots hn hash]
  constructor
  · rintro ⟨j, hj⟩
    apply Finset.card_lt_card
    rw [Finset.filter_ssubset]
    refine ⟨slotOf entries hash j, ?_, by rw [hj]; decide⟩
    rw [laneSlots, Finset.mem_filter, Finset.mem_range]
    exact ⟨slotOf_lt hn hash j, slotOf_div hn hash j⟩
  · intro hlt
    by_contra hnone
    apply Nat.ne_of_lt hlt
    congr 1
    rw [Finset.filter_eq_self]
    intro slot hslot
    rw [laneSlots, Finset.mem_filter] at hslot
    obtain ⟨j, rfl⟩ := exists_slotOf hn hslot.2
    rw [← Bool.not_eq_false]
    intro hvacant
    exact hnone ⟨j, hvacant⟩

/-! ### Fuel -/

theorem place_mono {known : Option (UInt64 × EntryID)} {fuel more : Nat} {flight : Flight}
    {result : List Entry × Bool} (h : place known fuel flight = some result) (hle : fuel ≤ more) :
    place known more flight = some result := by
  induction fuel generalizing flight more with
  | zero => cases h
  | succ fuel ih =>
      obtain ⟨more, rfl⟩ := Nat.exists_eq_add_of_le' (le_trans (Nat.le_add_left 1 fuel) hle)
      cases hlive : flight.current.live with
      | false =>
          rw [place_of_not_live hlive] at h ⊢
          exact h
      | true =>
          by_cases hmatch : ∃ value, known = some (flight.current.hash, value)
          · obtain ⟨value, rfl⟩ := hmatch
            rw [place_of_match hlive rfl] at h ⊢
            exact h
          · have hother : ∀ target ∈ known, flight.current.hash ≠ target.1 := by
              intro target htarget heq
              exact hmatch ⟨target.2, by rw [heq]; exact htarget⟩
            rw [place_of_live hlive hother] at h ⊢
            exact ih h (Nat.le_of_add_le_add_right hle)

theorem rehashLoop_mono {fuel more : Nat} (hle : fuel ≤ more) {oldEntries : List Entry}
    {table after : HashTable} (h : rehashLoop fuel oldEntries table = some after) :
    rehashLoop more oldEntries table = some after := by
  induction oldEntries generalizing table with
  | nil => exact h
  | cons entry oldEntries ih =>
      rw [rehashLoop] at h ⊢
      split at h
      · next hlive =>
        rw [if_pos hlive]
        rw [Option.bind_eq_bind, Option.bind_eq_some_iff] at h ⊢
        obtain ⟨result, hplace, hrest⟩ := h
        have hmore : place none more (takeOff table.entries { entry with probeLength := 0 })
            = some result :=
          place_mono hplace hle
        exact ⟨result, hmore, ih hrest⟩
      · next hlive =>
        rw [if_neg hlive]
        exact ih h

/-! ### When a rehash ends -/

/-- In a full lane the loop goes around forever. -/
theorem place_none_of_full {entry : Entry} (hn : 0 < entries.length) (hsettled : Settled entries)
    (hlive : entry.live = true)
    (hfull : ∀ j, (entryAt entries (slotOf entries entry.hash j)).live = true) (fuel : Nat) :
    place none fuel (takeOff entries entry) = none := by
  have hwalk : ∀ i < fuel, (Flight.shove^[i] (takeOff entries entry)).current.live = true := by
    intro i _
    have hwalked := walked_iterate (flying_takeOff hn hsettled hlive) i fun k _ => hfull k
    rw [Flight.current, hwalked.live_eq, hwalked.slot_eq]
    exact hfull i
  have hloop : place none (0 + fuel) (takeOff entries entry) = none :=
    place_iterate fuel 0 hwalk (by simp)
  rwa [Nat.zero_add] at hloop

theorem hashes_cons_of_live {entry : Entry} (h : entry.live = true) (entries : List Entry) :
    hashes (entry :: entries) = entry.hash ::ₘ hashes entries := by
  rw [hashes, stored_cons, if_pos h, Multiset.map_cons]
  rfl

theorem hashes_cons_of_not_live {entry : Entry} (h : ¬ entry.live = true) (entries : List Entry) :
    hashes (entry :: entries) = hashes entries := by
  rw [hashes, stored_cons, if_neg h]
  rfl

theorem Grown.hashes_eq {entry : Entry} {after : List Entry} (h : Grown entries entry after) :
    hashes after = entry.hash ::ₘ hashes entries := by
  rw [hashes, h.stored_eq, Multiset.map_cons]
  rfl

/-- An entry as `rehash` takes it up. -/
def Entry.restart (entry : Entry) : Entry := { entry with probeLength := 0 }

theorem laneLoad_cons_self (n : Nat) (hash : UInt64) (stored : Multiset UInt64) :
    laneLoad n (hash ::ₘ stored) (laneOf n hash) = laneLoad n stored (laneOf n hash) + 1 :=
  Multiset.countP_cons_of_pos _ rfl

theorem laneLoad_mono (n : Nat) {stored more : Multiset UInt64} (h : stored ≤ more) (lane : Nat) :
    laneLoad n stored lane ≤ laneLoad n more lane :=
  Multiset.countP_le_of_le _ h

theorem rehashLoop_cons_iff {entry : Entry} (hlive : entry.live = true) {fuel : Nat}
    {oldEntries : List Entry} {table after : HashTable} :
    rehashLoop fuel (entry :: oldEntries) table = some after
      ↔ ∃ result, place none fuel (takeOff table.entries entry.restart) = some result
        ∧ rehashLoop fuel oldEntries { entries := result.1, size := table.size + 1 } = some after := by
  rw [rehashLoop, if_pos (show (entry.occupied && !entry.tombstone) = true from hlive),
    Option.bind_eq_bind, Option.bind_eq_some_iff]
  rfl

/-- What the loop of `rehash` keeps of the new table. -/
structure Fresh (n : Nat) (table : HashTable) : Prop where
  length_eq : table.entries.length = n
  settled : Settled table.entries
  untombed : Untombed table.entries
  probe_lt : ∀ slot, (entryAt table.entries slot).probeLength < table.entries.length

/-- One entry goes into the new table if its lane has room. -/
theorem Fresh.place_iff {n : Nat} (hn : 0 < n) {table : HashTable} (h : Fresh n table)
    {entry : Entry} (hlive : entry.live = true) (hstart : entry.probeLength = 0) :
    (∃ fuel result, place none fuel (takeOff table.entries entry) = some result)
      ↔ laneLoad n (hashes table.entries) (laneOf n entry.hash) < laneSize n := by
  obtain ⟨rfl, hsettled, huntombed, -⟩ := h
  rw [← exists_vacant_iff hn hsettled]
  constructor
  · rintro ⟨fuel, result, hplace⟩
    by_contra hnone
    have hfull : ∀ j, (entryAt table.entries (slotOf table.entries entry.hash j)).live = true := by
      intro j
      rw [← Bool.not_eq_false]
      intro hvacant
      exact hnone ⟨j, hvacant⟩
    rw [place_none_of_full hn hsettled hlive hfull] at hplace
    cases hplace
  · rintro ⟨i, hi⟩
    obtain ⟨j, hj⟩ := exists_vacant hi
    obtain ⟨after, hplace, -⟩ := hj.grown none hn hsettled huntombed hlive hstart (by simp)
    exact ⟨0 + 1 + j, _, hplace 0⟩

theorem Fresh.grown {n : Nat} (hn : 0 < n) {table : HashTable} (h : Fresh n table)
    {entry : Entry} (hlive : entry.live = true) (hstart : entry.probeLength = 0) {fuel : Nat}
    {result : List Entry × Bool}
    (hplace : place none fuel (takeOff table.entries entry) = some result) :
    Grown table.entries entry result.1 := by
  have hroom := (h.place_iff hn hlive hstart).mp ⟨fuel, result, hplace⟩
  obtain ⟨rfl, hsettled, huntombed, -⟩ := h
  obtain ⟨i, hi⟩ := (exists_vacant_iff hn hsettled entry.hash).mpr hroom
  obtain ⟨j, hj⟩ := exists_vacant hi
  obtain ⟨after, hends, hgrown⟩ := hj.grown none hn hsettled huntombed hlive hstart (by simp)
  have hsame := place_mono hplace (Nat.le_add_right fuel (1 + j))
  have hother := hends fuel
  rw [Nat.add_assoc, hsame] at hother
  cases hother
  exact hgrown

theorem Fresh.next {n : Nat} {table : HashTable} (h : Fresh n table) {entry : Entry}
    {after : List Entry} (hgrown : Grown table.entries entry after) (size : Nat) :
    Fresh n { entries := after, size := size } :=
  ⟨hgrown.length_eq.trans h.length_eq, hgrown.settled, hgrown.untombed, hgrown.probe_lt h.probe_lt⟩

theorem rehashLoop_ends_iff {n : Nat} (hn : 0 < n) (oldEntries : List Entry) {table : HashTable}
    (h : Fresh n table) :
    (∃ fuel after, rehashLoop fuel oldEntries table = some after)
      ↔ ∀ lane, laneLoad n (hashes table.entries + hashes oldEntries) lane ≤ laneSize n := by
  induction oldEntries generalizing table with
  | nil =>
      refine iff_of_true ⟨0, table, rfl⟩ ?_
      intro lane
      have hzero : hashes [] = 0 := rfl
      rw [hzero, Multiset.add_zero, ← h.length_eq]
      exact laneLoad_le (h.length_eq ▸ hn) h.settled lane
  | cons entry oldEntries ih =>
      by_cases hlive : entry.live = true
      · have hmove : ∀ stored : Multiset UInt64, (entry.hash ::ₘ stored) + hashes oldEntries
            = stored + hashes (entry :: oldEntries) := by
          intro stored
          rw [hashes_cons_of_live hlive, Multiset.cons_add, Multiset.add_cons]
        have hliveRestart : entry.restart.live = true := hlive
        constructor
        · rintro ⟨fuel, after, hloop⟩
          obtain ⟨result, hplace, hrest⟩ := (rehashLoop_cons_iff hlive).mp hloop
          have hgrown := h.grown hn hliveRestart rfl hplace
          have hhashes : hashes result.1 = entry.hash ::ₘ hashes table.entries := hgrown.hashes_eq
          rw [← hmove, ← hhashes]
          exact (ih (h.next hgrown (table.size + 1))).mp ⟨fuel, after, hrest⟩
        · intro hload
          have hroom := hload (laneOf n entry.hash)
          rw [← hmove, Multiset.cons_add, laneLoad_cons_self] at hroom
          have hhere := laneLoad_mono n (Multiset.le_add_right (hashes table.entries)
            (hashes oldEntries)) (laneOf n entry.hash)
          obtain ⟨fuel, result, hplace⟩ := (h.place_iff hn hliveRestart rfl).mpr
            (lt_of_le_of_lt hhere (Nat.lt_of_succ_le hroom))
          have hgrown := h.grown hn hliveRestart rfl hplace
          have hhashes : hashes result.1 = entry.hash ::ₘ hashes table.entries := hgrown.hashes_eq
          rw [← hmove, ← hhashes] at hload
          obtain ⟨more, after, hrest⟩ := (ih (h.next hgrown (table.size + 1))).mpr hload
          refine ⟨max fuel more, after, (rehashLoop_cons_iff hlive).mpr ⟨result, ?_, ?_⟩⟩
          · exact place_mono hplace (Nat.le_max_left _ _)
          · exact rehashLoop_mono (Nat.le_max_right _ _) hrest
      · rw [hashes_cons_of_not_live hlive, ← ih h]
        have hloop : ∀ fuel, rehashLoop fuel (entry :: oldEntries) table
            = rehashLoop fuel oldEntries table := by
          intro fuel
          rw [rehashLoop]
          exact if_neg hlive
        simp only [hloop]

/-- A rehash keeps what is stored. -/
theorem Fresh.rehashLoop {n : Nat} (hn : 0 < n) {fuel : Nat} (oldEntries : List Entry)
    {table after : HashTable} (h : Fresh n table)
    (hloop : rehashLoop fuel oldEntries table = some after) :
    Fresh n after ∧ stored after.entries = stored table.entries + stored oldEntries
      ∧ after.size = table.size + (stored oldEntries).card := by
  induction oldEntries generalizing table with
  | nil =>
      cases hloop
      exact ⟨h, (Multiset.add_zero _).symm, rfl⟩
  | cons entry oldEntries ih =>
      by_cases hlive : entry.live = true
      · obtain ⟨result, hplace, hrest⟩ := (rehashLoop_cons_iff hlive).mp hloop
        have hliveRestart : entry.restart.live = true := hlive
        have hgrown := h.grown hn hliveRestart rfl hplace
        have hresult : stored result.1 = entry.pair ::ₘ stored table.entries := hgrown.stored_eq
        obtain ⟨hafter, hstored, hsize⟩ := ih (h.next hgrown (table.size + 1)) hrest
        refine ⟨hafter, ?_, ?_⟩
        · rw [hstored, hresult, stored_cons, if_pos hlive, Multiset.cons_add, Multiset.add_cons]
        · rw [hsize, stored_cons, if_pos hlive, Multiset.card_cons, Nat.add_right_comm, Nat.add_assoc]
      · rw [HashTable.rehashLoop, if_neg (show ¬ (entry.occupied && !entry.tombstone) = true from hlive)]
          at hloop
        rw [stored_cons, if_neg hlive]
        exact ih h hloop

theorem entryAt_replicate (n slot : Nat) : entryAt (List.replicate n {}) slot = {} := by
  by_cases h : slot < n
  · simp [entryAt, h]
  · simp [entryAt, Nat.le_of_not_lt h]

theorem fresh_replicate {n : Nat} (hn : 0 < n) (size : Nat) :
    Fresh n { entries := List.replicate n {}, size := size } := by
  refine ⟨List.length_replicate, ?_, ?_, ?_⟩
  · intro slot _ hlive
    rw [entryAt_replicate] at hlive
    cases hlive
  · intro slot hused
    rw [entryAt_replicate] at hused
    cases hused
  · intro slot
    rw [entryAt_replicate, List.length_replicate]
    exact hn

/-- **A rehash ends exactly if no lane of the new table gets more entries than it has slots.** -/
theorem rehash_ends_iff {n : Nat} (hn : 0 < n) (table : HashTable) :
    (∃ fuel after, table.rehash fuel n = some after)
      ↔ ∀ lane, laneLoad n (hashes table.entries) lane ≤ laneSize n := by
  have hempty : hashes (List.replicate n {}) = 0 := by
    rw [hashes, stored_replicate, Multiset.map_zero]
  have hloop := rehashLoop_ends_iff hn table.entries (fresh_replicate hn 0)
  rw [hempty, Multiset.zero_add] at hloop
  exact hloop

theorem fresh_rehash {n : Nat} (hn : 0 < n) {fuel : Nat} {table after : HashTable}
    (h : table.rehash fuel n = some after) :
    Fresh n after ∧ stored after.entries = stored table.entries
      ∧ after.size = (stored table.entries).card := by
  obtain ⟨hfresh, hstored, hsize⟩ := (fresh_replicate hn 0).rehashLoop hn table.entries h
  rw [stored_replicate, Multiset.zero_add] at hstored
  exact ⟨hfresh, hstored, by rw [hsize, Nat.zero_add]⟩

end HashTable

end NebulaFS
