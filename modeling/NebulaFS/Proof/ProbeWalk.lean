import Mathlib.Data.Multiset.AddSub
import NebulaFS.HashTable

/-!
# What a probe meets

`Settled` is the invariant of the table: from the ideal slot of every live entry its probe finds only
used slots up to the entry, each with a probe length that lets the probe go on. An insertion carries one
entry along a probe and may swap it with a stored one (`shove`); the invariant holds at every moment
with the carried entry as if it stood at the slot in hand (`Flying.shove`).
-/

namespace NebulaFS

open MaskedProbe

namespace HashTable

variable {entries : List Entry} {hash : UInt64}

def Entry.used (entry : Entry) : Bool := entry.occupied || entry.tombstone

theorem Entry.used_of_live {entry : Entry} (h : entry.live = true) : entry.used = true := by
  simp only [Entry.live, Bool.and_eq_true] at h
  simp [Entry.used, h.1]

/-- The slot that a probe for the hash reaches after so many steps. -/
def slotOf (entries : List Entry) (hash : UInt64) (j : Nat) : Nat :=
  slotAt entries.length (idealSlot entries.length hash) j

/-- A probe for the hash gets this far. -/
def Open (entries : List Entry) (hash : UInt64) (d : Nat) : Prop :=
  ∀ i < d, (entryAt entries (slotOf entries hash i)).used = true
    ∧ i ≤ (entryAt entries (slotOf entries hash i)).probeLength

/-- A probe for the hash gets to the slot, and finds an entry there that has this probe length. -/
def Reaches (entries : List Entry) (hash : UInt64) (slot probeLength : Nat) : Prop :=
  ∃ d, slotOf entries hash d = slot ∧ d ≤ probeLength ∧ Open entries hash d

def Settled (entries : List Entry) : Prop :=
  ∀ slot < entries.length, (entryAt entries slot).live = true →
    Reaches entries (entryAt entries slot).hash slot (entryAt entries slot).probeLength

theorem onLane_idealSlot (n : Nat) (hash : UInt64) : OnLane n (idealSlot n hash) :=
  onLane_and n hash.toNat

theorem slotOf_lt (hn : 0 < entries.length) (hash : UInt64) (j : Nat) :
    slotOf entries hash j < entries.length :=
  (onLane_slotAt (onLane_idealSlot _ hash) j).lt hn

theorem slotOf_succ (entries : List Entry) (hash : UInt64) (j : Nat) :
    slotOf entries hash (j + 1) = next entries.length (slotOf entries hash j) :=
  slotAt_succ _ _ _

/-! ### What is stored -/

def Entry.pair (entry : Entry) : UInt64 × EntryID := (entry.hash, entry.entryId)

/-- The hashes and values of the live entries. -/
def stored (entries : List Entry) : Multiset (UInt64 × EntryID) :=
  ((entries.filter Entry.live).map Entry.pair : List (UInt64 × EntryID))

theorem stored_cons (entry : Entry) (entries : List Entry) :
    stored (entry :: entries)
      = if entry.live = true then entry.pair ::ₘ stored entries else stored entries := by
  unfold stored
  cases hlive : entry.live with
  | false => simp [hlive]
  | true => simp [hlive]

theorem mem_stored_iff {pair : UInt64 × EntryID} :
    pair ∈ stored entries ↔ ∃ slot < entries.length,
      (entryAt entries slot).live = true ∧ (entryAt entries slot).pair = pair := by
  simp only [stored, Multiset.mem_coe, List.mem_map, List.mem_filter]
  constructor
  · rintro ⟨entry, ⟨hmem, hlive⟩, hpair⟩
    obtain ⟨slot, hslot, hget⟩ := List.mem_iff_getElem.mp hmem
    have hentry : entryAt entries slot = entry := by
      simp [entryAt, hslot, hget]
    exact ⟨slot, hslot, by rwa [hentry], by rwa [hentry]⟩
  · rintro ⟨slot, hslot, hlive, hpair⟩
    refine ⟨entryAt entries slot, ⟨?_, hlive⟩, hpair⟩
    simp [entryAt, hslot]

theorem stored_replicate (n : Nat) : stored (List.replicate n {}) = 0 := by
  simp [stored, Entry.live]

/-- The entry that leaves a slot and the one that takes its place. -/
theorem stored_set (entries : List Entry) {slot : Nat} (hslot : slot < entries.length)
    (entry : Entry) :
    (if (entryAt entries slot).live = true then {(entryAt entries slot).pair} else 0)
        + stored (entries.set slot entry)
      = (if entry.live = true then {entry.pair} else 0) + stored entries := by
  induction entries generalizing slot with
  | nil => cases hslot
  | cons head entries ih =>
      cases slot with
      | zero =>
          change (if head.live = true then {head.pair} else 0) + stored (entry :: entries) = _
          rw [stored_cons, stored_cons]
          split <;> split <;> simp [Multiset.cons_swap]
      | succ slot =>
          have hrest := ih (Nat.lt_of_succ_lt_succ hslot)
          change (if (entryAt entries slot).live = true then {(entryAt entries slot).pair} else 0)
            + stored (head :: entries.set slot entry) = _
          rw [stored_cons, stored_cons]
          cases head.live with
          | false => simpa using hrest
          | true =>
              simp only [if_true]
              rw [Multiset.add_cons, Multiset.add_cons, hrest]

def hashes (entries : List Entry) : Multiset UInt64 := (stored entries).map Prod.fst

theorem mem_hashes_iff : hash ∈ hashes entries ↔ ∃ slot < entries.length,
    (entryAt entries slot).live = true ∧ (entryAt entries slot).hash = hash := by
  simp only [hashes, Multiset.mem_map, mem_stored_iff]
  constructor
  · rintro ⟨pair, ⟨slot, hslot, hlive, rfl⟩, rfl⟩
    exact ⟨slot, hslot, hlive, rfl⟩
  · rintro ⟨slot, hslot, hlive, rfl⟩
    exact ⟨_, ⟨slot, hslot, hlive, rfl⟩, rfl⟩

theorem entryAt_eq_getElem {slot : Nat} (h : slot < entries.length) :
    entryAt entries slot = entries[slot] := by
  simp [entryAt, h]

/-- Every hash is stored in one slot at most. -/
theorem nodup_hashes_iff : (hashes entries).Nodup ↔ ∀ slot < entries.length,
    ∀ other < entries.length, (entryAt entries slot).live = true →
      (entryAt entries other).live = true →
        (entryAt entries slot).hash = (entryAt entries other).hash → slot = other := by
  have hpairwise : (hashes entries).Nodup
      ↔ entries.Pairwise fun a b => a.live = true → b.live = true → a.hash ≠ b.hash := by
    simp only [hashes, stored, Multiset.map_coe, Multiset.coe_nodup, List.Nodup, List.pairwise_map,
      List.pairwise_filter]
    rfl
  rw [hpairwise, List.pairwise_iff_getElem]
  constructor
  · intro h slot hslot other hother hlive hlive' heq
    rw [entryAt_eq_getElem hslot] at hlive heq
    rw [entryAt_eq_getElem hother] at hlive' heq
    rcases lt_trichotomy slot other with hlt | hsame | hgt
    · exact absurd heq (h slot other hslot hother hlt hlive hlive')
    · exact hsame
    · exact absurd heq.symm (h other slot hother hslot hgt hlive' hlive)
  · intro h slot other hslot hother hlt hlive hlive' heq
    have hsame := h slot hslot other hother
    rw [entryAt_eq_getElem hslot, entryAt_eq_getElem hother] at hsame
    exact absurd (hsame hlive hlive' heq) (Nat.ne_of_lt hlt)

/-! ### Looking up -/

def findHash (entries : List Entry) (hash : UInt64) : Option EntryID :=
  (probe entries hash).map fun slot => (entryAt entries slot).entryId

theorem le_maxProbe (entries : List Entry) (slot : Nat) :
    (entryAt entries slot).probeLength ≤ maxProbe entries := by
  induction entries generalizing slot with
  | nil => exact Nat.zero_le _
  | cons head entries ih =>
      cases slot with
      | zero => exact Nat.le_max_left _ _
      | succ slot => exact le_trans (ih slot) (Nat.le_max_right _ _)

/-- The live entry of this hash is in the slot. -/
def Holds (entries : List Entry) (hash : UInt64) (slot : Nat) : Prop :=
  (entryAt entries slot).live = true ∧ (entryAt entries slot).hash = hash

theorem holds_iff {slot : Nat} : Holds entries hash slot
    ↔ ((entryAt entries slot).occupied && !(entryAt entries slot).tombstone
      && (entryAt entries slot).hash == hash) = true := by
  rw [Bool.and_eq_true, beq_iff_eq]
  rfl

/-- What a probe has gone over. -/
theorem open_of_probeLoop {fuel slot probeLength found : Nat}
    (h : probeLoop entries hash fuel slot probeLength = some found) :
    ∃ d, found = slotAt entries.length slot d ∧ Holds entries hash found
      ∧ probeLength + d ≤ (entryAt entries found).probeLength
      ∧ ∀ i < d, (entryAt entries (slotAt entries.length slot i)).used = true
        ∧ probeLength + i ≤ (entryAt entries (slotAt entries.length slot i)).probeLength
        ∧ ¬ Holds entries hash (slotAt entries.length slot i) := by
  induction fuel generalizing slot probeLength with
  | zero => cases h
  | succ fuel ih =>
      rw [probeLoop] at h
      split at h
      · cases h
      · next hlength =>
        split at h
        · next hmatch =>
          cases h
          exact ⟨0, rfl, holds_iff.mpr hmatch, not_lt.mp hlength,
            fun _ hi => absurd hi (Nat.not_lt_zero _)⟩
        · next hother =>
          split at h
          · cases h
          · next hempty =>
            obtain ⟨d, hd, hholds, hend, hpath⟩ := ih h
            refine ⟨d + 1, by rw [hd, slotAt_next], hholds, by omega, ?_⟩
            intro i hi
            cases i with
            | zero =>
                refine ⟨?_, not_lt.mp hlength, fun hhere => hother (holds_iff.mp hhere)⟩
                rw [← Bool.not_or, Bool.not_eq_true, Bool.not_eq_false'] at hempty
                exact hempty
            | succ i =>
                obtain ⟨hused, hle, hother⟩ := hpath i (Nat.lt_of_succ_lt_succ hi)
                rw [slotAt_next] at hused hle hother
                exact ⟨hused, by omega, hother⟩

/-- A probe goes over used slots of other hashes to the one it looks for. -/
theorem probeLoop_eq_some (d fuel : Nat) {slot probeLength : Nat}
    (hpath : ∀ i < d, (entryAt entries (slotAt entries.length slot i)).used = true
      ∧ probeLength + i ≤ (entryAt entries (slotAt entries.length slot i)).probeLength
      ∧ ¬ Holds entries hash (slotAt entries.length slot i))
    (hlength : probeLength + d ≤ (entryAt entries (slotAt entries.length slot d)).probeLength)
    (hholds : Holds entries hash (slotAt entries.length slot d)) :
    probeLoop entries hash (fuel + d + 1) slot probeLength
      = some (slotAt entries.length slot d) := by
  induction d generalizing slot probeLength with
  | zero =>
      rw [slotAt_zero, Nat.add_zero] at hlength
      rw [probeLoop, if_neg (not_lt.mpr hlength)]
      exact if_pos (holds_iff.mp hholds)
  | succ d ih =>
      obtain ⟨hused, hle, hother⟩ := hpath 0 (Nat.succ_pos d)
      rw [slotAt_zero] at hused hle hother
      rw [Nat.add_zero] at hle
      have hempty : ¬ (!(entryAt entries slot).occupied
          && !(entryAt entries slot).tombstone) = true := by
        rw [Entry.used] at hused
        rw [← Bool.not_or, hused]
        decide
      have hrest := @ih (next entries.length slot) (probeLength + 1)
      simp only [slotAt_next] at hrest
      rw [← Nat.add_assoc, probeLoop, if_neg (not_lt.mpr hle),
        if_neg fun h => hother (holds_iff.mpr h), if_neg hempty]
      apply hrest
      · intro i hi
        obtain ⟨hused, hle, hother⟩ := hpath (i + 1) (Nat.succ_lt_succ hi)
        exact ⟨hused, by omega, hother⟩
      · omega
      · exact hholds

theorem holds_of_probe {found : Nat} (hn : 0 < entries.length)
    (h : probe entries hash = some found) : found < entries.length ∧ Holds entries hash found := by
  obtain ⟨d, rfl, hholds, -⟩ := open_of_probeLoop h
  exact ⟨slotOf_lt hn hash d, hholds⟩

/-- A settled entry is found. -/
theorem exists_probe_of_settled (h : Settled entries) {slot : Nat} (hslot : slot < entries.length)
    (hholds : Holds entries hash slot) : ∃ found, probe entries hash = some found := by
  classical
  obtain ⟨hlive, rfl⟩ := hholds
  obtain ⟨d, hd, hle, hopen⟩ := h slot hslot hlive
  -- the probe stops at the first slot that holds the hash
  have hex : ∃ i, Holds entries (entryAt entries slot).hash
      (slotOf entries (entryAt entries slot).hash i) := by
    refine ⟨d, ?_⟩
    rw [hd]
    exact ⟨hlive, rfl⟩
  have hfirst := Nat.find_spec hex
  have hmin : Nat.find hex ≤ d := Nat.find_min' hex (by rw [hd]; exact ⟨hlive, rfl⟩)
  have hlength : Nat.find hex ≤ (entryAt entries (slotOf entries (entryAt entries slot).hash
      (Nat.find hex))).probeLength := by
    rcases Nat.lt_or_eq_of_le hmin with hlt | heq
    · exact (hopen _ hlt).2
    · rw [heq, hd]
      exact hle
  have hfuel := le_trans hlength (le_maxProbe entries _)
  obtain ⟨fuel, hfuelEq⟩ := Nat.exists_eq_add_of_le hfuel
  refine ⟨slotOf entries (entryAt entries slot).hash (Nat.find hex), ?_⟩
  rw [probe, hfuelEq, Nat.add_comm (Nat.find hex)]
  apply probeLoop_eq_some
  · intro i hi
    obtain ⟨hused, hopenLength⟩ := hopen i (lt_of_lt_of_le hi hmin)
    exact ⟨hused, by rw [Nat.zero_add]; exact hopenLength, Nat.find_min hex hi⟩
  · rw [Nat.zero_add]
    exact hlength
  · exact hfirst

theorem findHash_eq_some_iff (hn : 0 < entries.length) (h : Settled entries)
    (hnodup : (hashes entries).Nodup) {value : EntryID} :
    findHash entries hash = some value ↔ (hash, value) ∈ stored entries := by
  rw [findHash, Option.map_eq_some_iff, mem_stored_iff]
  constructor
  · rintro ⟨found, hprobe, rfl⟩
    obtain ⟨hfound, hlive, rfl⟩ := holds_of_probe hn hprobe
    exact ⟨found, hfound, hlive, rfl⟩
  · rintro ⟨slot, hslot, hlive, hpair⟩
    obtain ⟨rfl, rfl⟩ := Prod.mk.inj hpair
    obtain ⟨found, hprobe⟩ := exists_probe_of_settled h hslot ⟨hlive, rfl⟩
    obtain ⟨hfound, hfoundLive, hfoundHash⟩ := holds_of_probe hn hprobe
    have hsame := nodup_hashes_iff.mp hnodup found hfound slot hslot hfoundLive hlive hfoundHash
    exact ⟨found, hprobe, by rw [hsame]⟩

/-! ### Changing one slot -/

@[simp]
theorem slotOf_set (entries : List Entry) (slot : Nat) (entry : Entry) (hash : UInt64) (j : Nat) :
    slotOf (entries.set slot entry) hash j = slotOf entries hash j := by
  simp [slotOf]

theorem entryAt_set_self {slot : Nat} (h : slot < entries.length) (entry : Entry) :
    entryAt (entries.set slot entry) slot = entry := by
  simp [entryAt, h]

theorem entryAt_set_of_ne {slot other : Nat} (h : other ≠ slot) (entry : Entry) :
    entryAt (entries.set slot entry) other = entryAt entries other := by
  simp [entryAt, List.getElem?_set_ne h.symm]

/-- A slot that is used as before, and lets probes go on as far as before, closes no way. -/
theorem Open.set {slot d : Nat} {entry : Entry} (h : Open entries hash d)
    (hslot : slot < entries.length)
    (hkeep : ∀ i < d, slotOf entries hash i = slot → entry.used = true ∧ i ≤ entry.probeLength) :
    Open (entries.set slot entry) hash d := by
  intro i hi
  rw [slotOf_set]
  by_cases heq : slotOf entries hash i = slot
  · rw [heq, entryAt_set_self hslot]
    exact hkeep i hi heq
  · rw [entryAt_set_of_ne heq]
    exact h i hi

theorem Open.mono {d e : Nat} (h : Open entries hash d) (hle : e ≤ d) : Open entries hash e :=
  fun i hi => h i (lt_of_lt_of_le hi hle)

theorem Open.succ {d : Nat} (h : Open entries hash d)
    (hused : (entryAt entries (slotOf entries hash d)).used = true)
    (hlength : d ≤ (entryAt entries (slotOf entries hash d)).probeLength) :
    Open entries hash (d + 1) := by
  intro i hi
  rcases Nat.lt_succ_iff_lt_or_eq.mp hi with hlt | rfl
  · exact h i hlt
  · exact ⟨hused, hlength⟩

/-- An entry is put into a slot. -/
theorem settled_set {slot : Nat} {entry : Entry} (hslot : slot < entries.length)
    (hothers : ∀ other < entries.length, other ≠ slot → (entryAt entries other).live = true →
      ∃ d, slotOf entries (entryAt entries other).hash d = other
        ∧ d ≤ (entryAt entries other).probeLength ∧ Open entries (entryAt entries other).hash d
        ∧ ∀ i < d, slotOf entries (entryAt entries other).hash i = slot →
          entry.used = true ∧ i ≤ entry.probeLength)
    (hself : entry.live = true → Reaches (entries.set slot entry) entry.hash slot entry.probeLength) :
    Settled (entries.set slot entry) := by
  intro other hother hlive
  rw [List.length_set] at hother
  by_cases heq : other = slot
  · subst heq
    rw [entryAt_set_self hslot] at hlive ⊢
    exact hself hlive
  · rw [entryAt_set_of_ne heq] at hlive ⊢
    obtain ⟨d, hreach, hlength, hopen, hkeep⟩ := hothers other hother heq hlive
    exact ⟨d, by rw [slotOf_set, hreach], hlength, hopen.set hslot hkeep⟩

/-- A slot that is used as before, and lets probes go at least as far as before. -/
theorem Settled.replace {slot : Nat} {entry : Entry} (h : Settled entries)
    (hslot : slot < entries.length) (hused : entry.used = true)
    (hlength : (entryAt entries slot).probeLength ≤ entry.probeLength)
    (hself : entry.live = true → Reaches entries entry.hash slot entry.probeLength) :
    Settled (entries.set slot entry) := by
  have hkeep : ∀ {hash : UInt64} {d : Nat}, Open entries hash d →
      ∀ i < d, slotOf entries hash i = slot → entry.used = true ∧ i ≤ entry.probeLength := by
    intro hash d hopen i hi heq
    have hle := (hopen i hi).2
    rw [heq] at hle
    exact ⟨hused, le_trans hle hlength⟩
  apply settled_set hslot
  · intro other hother _ hlive
    obtain ⟨d, hreach, hle, hopen⟩ := h other hother hlive
    exact ⟨d, hreach, hle, hopen, hkeep hopen⟩
  · intro hlive
    obtain ⟨d, hreach, hle, hopen⟩ := hself hlive
    exact ⟨d, by rw [slotOf_set, hreach], hle, hopen.set hslot (hkeep hopen)⟩

/-! ### An entry in flight -/

structure Flight where
  entries : List Entry
  slot : Nat
  newEntry : Entry

namespace Flight

def current (flight : Flight) : Entry := entryAt flight.entries flight.slot

/-- One round of the loop at a live slot of another hash. -/
def shove (flight : Flight) : Flight :=
  if flight.current.probeLength < flight.newEntry.probeLength then
    { entries := flight.entries.set flight.slot flight.newEntry
      slot := next flight.entries.length flight.slot
      newEntry := { flight.current with probeLength := flight.current.probeLength + 1 + 1 } }
  else
    { entries := flight.entries
      slot := next flight.entries.length flight.slot
      newEntry := { flight.newEntry with probeLength := flight.newEntry.probeLength + 1 } }

theorem shove_of_lt {flight : Flight}
    (h : flight.current.probeLength < flight.newEntry.probeLength) :
    flight.shove = { entries := flight.entries.set flight.slot flight.newEntry
                     slot := next flight.entries.length flight.slot
                     newEntry := { flight.current with
                       probeLength := flight.current.probeLength + 1 + 1 } } :=
  if_pos h

theorem shove_of_not_lt {flight : Flight}
    (h : ¬ flight.current.probeLength < flight.newEntry.probeLength) :
    flight.shove = { entries := flight.entries
                     slot := next flight.entries.length flight.slot
                     newEntry := { flight.newEntry with
                       probeLength := flight.newEntry.probeLength + 1 } } :=
  if_neg h

end Flight

theorem Flight.entryAt_shove_of_ne {flight : Flight} {slot : Nat} (h : slot ≠ flight.slot) :
    entryAt flight.shove.entries slot = entryAt flight.entries slot := by
  unfold Flight.shove
  split
  · exact entryAt_set_of_ne h _
  · rfl

/-- The loop with what it carries in one record. -/
def place (known : Option (UInt64 × EntryID)) (fuel : Nat) (flight : Flight) :
    Option (List Entry × Bool) :=
  placeLoop known fuel flight.entries flight.slot flight.newEntry

variable {known : Option (UInt64 × EntryID)} {flight : Flight}

theorem vacant_eq (entry : Entry) : (!entry.occupied || entry.tombstone) = !entry.live := by
  simp [Entry.live]

theorem place_of_not_live (h : flight.current.live = false) (fuel : Nat) :
    place known (fuel + 1) flight
      = some (flight.entries.set flight.slot flight.newEntry, true) := by
  have hvacant := vacant_eq flight.current
  rw [h] at hvacant
  rw [place, placeLoop]
  exact if_pos hvacant

theorem place_of_match {value : EntryID} (h : flight.current.live = true)
    (hhash : flight.current.hash = hash) (fuel : Nat) :
    place (some (hash, value)) (fuel + 1) flight
      = some (flight.entries.set flight.slot { flight.current with entryId := value }, false) := by
  have hvacant := vacant_eq flight.current
  rw [h] at hvacant
  have hfilter : (some (hash, value)).filter (fun target => flight.current.hash == target.1)
      = some (hash, value) := by
    simp [Option.filter, hhash]
  unfold Flight.current at hfilter hvacant
  rw [place, placeLoop]
  dsimp only
  rw [if_neg (by simp [hvacant]), hfilter]
  rfl

theorem place_of_live (h : flight.current.live = true)
    (hhash : ∀ target ∈ known, flight.current.hash ≠ target.1) (fuel : Nat) :
    place known (fuel + 1) flight = place known fuel flight.shove := by
  have hvacant := vacant_eq flight.current
  rw [h] at hvacant
  have hfilter : known.filter (fun target => flight.current.hash == target.1) = none := by
    rw [Option.filter_eq_none_iff]
    intro target htarget
    simpa using hhash target htarget
  unfold Flight.current at hfilter hvacant
  rw [place, placeLoop, if_neg (by simp [hvacant]), hfilter]
  dsimp only
  by_cases hlt : flight.current.probeLength < flight.newEntry.probeLength
  · rw [Flight.shove_of_lt hlt]
    exact if_pos hlt
  · rw [Flight.shove_of_not_lt hlt]
    exact if_neg hlt

/-! ### The invariant in flight -/

/-- The table is settled, and so would the carried entry be at the slot in hand. -/
structure Flying (n : Nat) (flight : Flight) : Prop where
  length_eq : flight.entries.length = n
  slot_lt : flight.slot < n
  settled : Settled flight.entries
  live : flight.newEntry.live = true
  reaches : Reaches flight.entries flight.newEntry.hash flight.slot flight.newEntry.probeLength

theorem Reaches.next {slot probeLength : Nat} (h : Reaches entries hash slot probeLength)
    (hused : (entryAt entries slot).used = true)
    (hlength : probeLength ≤ (entryAt entries slot).probeLength) :
    Reaches entries hash (next entries.length slot) (probeLength + 1) := by
  obtain ⟨d, rfl, hle, hopen⟩ := h
  exact ⟨d + 1, slotOf_succ entries hash d, by omega, hopen.succ hused (le_trans hle hlength)⟩

theorem Flying.shove {n : Nat} (h : Flying n flight) (hlive : flight.current.live = true) :
    Flying n flight.shove := by
  obtain ⟨rfl, hslot, hsettled, hnew, hreaches⟩ := h
  have hused := Entry.used_of_live hlive
  have hnext : MaskedProbe.next flight.entries.length flight.slot < flight.entries.length :=
    (onLane_next _ _).lt (by omega)
  by_cases hlt : flight.current.probeLength < flight.newEntry.probeLength
  · rw [Flight.shove_of_lt hlt]
    have hswapped : Settled (flight.entries.set flight.slot flight.newEntry) :=
      hsettled.replace hslot (Entry.used_of_live hnew) (le_of_lt hlt) fun _ => hreaches
    refine ⟨List.length_set, hnext, hswapped, hlive, ?_⟩
    -- the displaced entry was settled here, and the slot now lets its probe go on
    obtain ⟨d, hd, hle, hopen⟩ := hsettled flight.slot hslot hlive
    have hkeep : ∀ i < d + 1, slotOf flight.entries flight.current.hash i = flight.slot →
        flight.newEntry.used = true ∧ i ≤ flight.newEntry.probeLength := by
      intro i hi _
      exact ⟨Entry.used_of_live hnew, le_trans (Nat.le_of_lt_succ hi) (le_trans hle (le_of_lt hlt))⟩
    have hfurther : Open flight.entries flight.current.hash (d + 1) := by
      refine hopen.succ ?_ ?_
      · rw [hd]
        exact hused
      · rw [hd]
        exact hle
    have harrive : slotOf flight.entries flight.current.hash (d + 1)
        = MaskedProbe.next flight.entries.length flight.slot := by
      rw [slotOf_succ]
      exact congrArg _ hd
    refine ⟨d + 1, ?_, Nat.succ_le_succ (Nat.le_succ_of_le hle), hfurther.set hslot hkeep⟩
    rw [slotOf_set]
    exact harrive
  · rw [Flight.shove_of_not_lt hlt]
    exact ⟨rfl, hnext, hsettled, hnew, hreaches.next hused (not_lt.mp hlt)⟩

/-- One of the first `i` slots of the walk has given way to an entry that was carried further. -/
def Flight.Overtaken (flight : Flight) (n i slot : Nat) (entry : Entry) : Prop :=
  ∃ k < i, slot = slotAt n flight.slot k
    ∧ (entryAt flight.entries slot).probeLength < entry.probeLength
    ∧ entry.probeLength ≤ flight.newEntry.probeLength + k

/-- The state after a walk over `i` live slots. -/
structure Walked (n : Nat) (flight : Flight) (i : Nat) (after : Flight) : Prop where
  flying : Flying n after
  slot_eq : after.slot = slotAt n flight.slot i
  live_eq : ∀ slot, (entryAt after.entries slot).live = (entryAt flight.entries slot).live
  used_eq : ∀ slot, (entryAt after.entries slot).used = (entryAt flight.entries slot).used
  changed : ∀ slot, entryAt after.entries slot = entryAt flight.entries slot
    ∨ flight.Overtaken n i slot (entryAt after.entries slot)
  stored_eq : after.newEntry.pair ::ₘ stored after.entries
    = flight.newEntry.pair ::ₘ stored flight.entries
  probe_le : after.newEntry.probeLength ≤ flight.newEntry.probeLength + i

theorem Walked.refl {n : Nat} (h : Flying n flight) : Walked n flight 0 flight :=
  ⟨h, rfl, fun _ => rfl, fun _ => rfl, fun _ => .inl rfl, rfl, le_refl _⟩

theorem Flight.Overtaken.mono {n i j slot : Nat} {entry : Entry} (h : flight.Overtaken n i slot entry)
    (hle : i ≤ j) : flight.Overtaken n j slot entry := by
  obtain ⟨k, hk, hrest⟩ := h
  exact ⟨k, lt_of_lt_of_le hk hle, hrest⟩

/-- The slots that are not on the way are as they were. -/
theorem Walked.untouched {n i : Nat} {after : Flight} (h : Walked n flight i after) {slot : Nat}
    (hne : ∀ k < i, slot ≠ slotAt n flight.slot k) :
    entryAt after.entries slot = entryAt flight.entries slot := by
  rcases h.changed slot with hsame | ⟨k, hk, hslot, -⟩
  · exact hsame
  · exact absurd hslot (hne k hk)

/-- No probe length in the table falls. -/
theorem Walked.length_mono {n i : Nat} {after : Flight} (h : Walked n flight i after) (slot : Nat) :
    (entryAt flight.entries slot).probeLength ≤ (entryAt after.entries slot).probeLength := by
  rcases h.changed slot with hsame | ⟨k, -, -, hlt, -⟩
  · rw [hsame]
  · exact le_of_lt hlt

theorem Walked.shove {n i : Nat} {after : Flight} (h : Walked n flight i after)
    (hlive : after.current.live = true) : Walked n flight (i + 1) after.shove := by
  have hflying := h.flying.shove hlive
  have hmono := h.length_mono after.slot
  obtain ⟨⟨hlength, hslot, hsettled, hnew, hreaches⟩, hslotEq, hliveEq, husedEq, hchanged, hstored,
    hprobe⟩ := h
  have hslot' : after.slot < after.entries.length := by rwa [hlength]
  have hnext : MaskedProbe.next after.entries.length after.slot = slotAt n flight.slot (i + 1) := by
    rw [hlength, hslotEq, slotAt_succ]
  by_cases hlt : after.current.probeLength < after.newEntry.probeLength
  · rw [Flight.shove_of_lt hlt] at hflying ⊢
    refine ⟨hflying, hnext, ?_, ?_, ?_, ?_, ?_⟩
    · intro slot
      by_cases heq : slot = after.slot
      · rw [heq, entryAt_set_self hslot', hnew, ← hliveEq]
        exact hlive.symm
      · rw [entryAt_set_of_ne heq, hliveEq]
    · intro slot
      by_cases heq : slot = after.slot
      · rw [heq, entryAt_set_self hslot', Entry.used_of_live hnew, ← husedEq]
        exact (Entry.used_of_live hlive).symm
      · rw [entryAt_set_of_ne heq, husedEq]
    · intro slot
      by_cases heq : slot = after.slot
      · rw [heq, entryAt_set_self hslot']
        exact .inr ⟨i, Nat.lt_succ_self i, hslotEq, lt_of_le_of_lt hmono hlt, hprobe⟩
      · rw [entryAt_set_of_ne heq]
        exact (hchanged slot).imp_right fun h => h.mono (Nat.le_succ i)
    · have hset := stored_set after.entries hslot' after.newEntry
      rw [if_pos hnew, if_pos (show (entryAt after.entries after.slot).live = true from hlive)] at hset
      exact hset.trans hstored
    · change after.current.probeLength + 1 + 1 ≤ _
      omega
  · rw [Flight.shove_of_not_lt hlt] at hflying ⊢
    refine ⟨hflying, hnext, hliveEq, husedEq, ?_, hstored, ?_⟩
    · intro slot
      exact (hchanged slot).imp_right fun h => h.mono (Nat.le_succ i)
    · change after.newEntry.probeLength + 1 ≤ _
      omega

theorem walked_iterate {n : Nat} (h : Flying n flight) (j : Nat)
    (hlive : ∀ i < j, (entryAt flight.entries (slotAt n flight.slot i)).live = true) :
    Walked n flight j (Flight.shove^[j] flight) := by
  induction j with
  | zero => exact Walked.refl h
  | succ j ih =>
      have hwalked := ih fun i hi => hlive i (Nat.lt_succ_of_lt hi)
      rw [Function.iterate_succ_apply']
      apply hwalked.shove
      rw [Flight.current, hwalked.live_eq, hwalked.slot_eq]
      exact hlive j (Nat.lt_succ_self j)

/-- The loop goes over slots of other hashes without ending. -/
theorem place_iterate (j : Nat) (fuel : Nat)
    (hlive : ∀ i < j, (Flight.shove^[i] flight).current.live = true)
    (hhash : ∀ i < j, ∀ target ∈ known, (Flight.shove^[i] flight).current.hash ≠ target.1) :
    place known (fuel + j) flight = place known fuel (Flight.shove^[j] flight) := by
  induction j generalizing fuel with
  | zero => rfl
  | succ j ih =>
      have hrest := ih (fuel + 1) (fun i hi => hlive i (Nat.lt_succ_of_lt hi))
        fun i hi => hhash i (Nat.lt_succ_of_lt hi)
      have hlast := place_of_live (hlive j (Nat.lt_succ_self j)) (hhash j (Nat.lt_succ_self j)) fuel
      rw [Function.iterate_succ_apply', ← hlast, ← hrest, Nat.add_right_comm, Nat.add_assoc]

end HashTable

end NebulaFS
