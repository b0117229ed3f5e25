import NebulaFS.Proof.Rehash

/-!
# Growing

What `growIfNeeded` leaves: the same stored pairs, and a slot to spare. A table whose capacity is a power
of two has one lane, so there the growth ends and an insertion finds a vacant slot.
-/

namespace NebulaFS

open MaskedProbe

namespace HashTable

variable {table after : HashTable} {fuel more : Nat}

/-! ### The load factor -/

theorem toDouble_bounds (n : Nat) :
    n * (2 ^ 52 - 1) ≤ toDouble n * 2 ^ 52 ∧ toDouble n * 2 ^ 52 ≤ n * (2 ^ 52 + 1) := by
  by_cases hsmall : n.log2 ≤ 52
  · have hexact : toDouble n = n := by
      simp [toDouble, Nat.sub_eq_zero_of_le hsmall, Nat.mod_one]
    rw [hexact]
    constructor
    · exact Nat.mul_le_mul_left n (by decide)
    · exact Nat.mul_le_mul_left n (by decide)
  · have hne : n ≠ 0 := by
      intro hzero
      rw [hzero] at hsmall
      exact hsmall (by decide)
    have hulp : 2 ^ 52 * 2 ^ (n.log2 - 52) ≤ n := by
      rw [← Nat.pow_add, Nat.add_sub_cancel' (by omega)]
      exact Nat.log2_self_le hne
    have hdiv := Nat.div_add_mod' n (2 ^ (n.log2 - 52))
    have hmod := Nat.mod_lt n (Nat.two_pow_pos (n.log2 - 52))
    simp only [toDouble]
    generalize 2 ^ (n.log2 - 52) = ulp at *
    split
    · rw [Nat.add_mul, Nat.one_mul]
      omega
    · rw [Nat.add_zero]
      omega

/-- A table that does not grow has a slot to spare. -/
theorem size_lt_of_not_overloaded {table : HashTable} (hn : 0 < table.capacity)
    (h : ¬ table.overloaded = true) : table.size < table.capacity := by
  have hsize := (toDouble_bounds table.size).1
  have hcapacity := (toDouble_bounds table.capacity).2
  simp only [overloaded, decide_eq_true_eq, not_lt] at h
  omega

/-! ### What growing keeps -/

structure Sound (table : HashTable) : Prop where
  pos : 0 < table.entries.length
  settled : Settled table.entries
  nodup : (hashes table.entries).Nodup
  size_eq : table.size = (stored table.entries).card

theorem card_stored_le (entries : List Entry) : (stored entries).card ≤ entries.length := by
  rw [stored, Multiset.coe_card, List.length_map]
  exact List.length_filter_le _ _

/-- What is left after growing. -/
structure Spacious (table grown : HashTable) : Prop extends Sound grown where
  stored_eq : stored grown.entries = stored table.entries
  room : grown.size < grown.capacity
  kept_or_fresh : grown = table ∨ Fresh (table.capacity * 2) grown

theorem Sound.spacious (h : Sound table) {grown : HashTable}
    (hgrow : table.growIfNeeded fuel = some grown) : Spacious table grown := by
  unfold growIfNeeded at hgrow
  split at hgrow
  · obtain ⟨hfresh, hstored, hsize⟩ := fresh_rehash (Nat.mul_pos h.pos (by decide)) hgrow
    have hcapacity : grown.entries.length = table.entries.length * 2 := hfresh.length_eq
    refine ⟨⟨?_, hfresh.settled, ?_, ?_⟩, hstored, ?_, .inr hfresh⟩
    · rw [hcapacity]
      exact Nat.mul_pos h.pos (by decide)
    · rw [hashes, hstored]
      exact h.nodup
    · rw [hsize, hstored]
    · have hle := card_stored_le table.entries
      have hpos := h.pos
      rw [hsize, capacity, hcapacity]
      omega
  · next hroom =>
    cases hgrow
    exact ⟨h, rfl, size_lt_of_not_overloaded h.pos hroom, .inl rfl⟩

/-- What is found depends on what is stored alone. -/
theorem findHash_congr {entries others : List Entry} (hpos : 0 < entries.length)
    (hsettled : Settled entries) (hnodup : (hashes entries).Nodup) (hother : 0 < others.length)
    (hotherSettled : Settled others) (hstored : stored others = stored entries) (hash : UInt64) :
    findHash others hash = findHash entries hash := by
  have hotherNodup : (hashes others).Nodup := by
    rw [hashes, hstored]
    exact hnodup
  apply Option.ext
  intro value
  rw [findHash_eq_some_iff hother hotherSettled hotherNodup,
    findHash_eq_some_iff hpos hsettled hnodup, hstored]

theorem Spacious.findHash_eq {grown : HashTable} (h : Sound table) (hspacious : Spacious table grown)
    (hash : UInt64) : findHash grown.entries hash = findHash table.entries hash :=
  findHash_congr h.pos h.settled h.nodup hspacious.pos hspacious.settled hspacious.stored_eq hash

theorem laneLoad_le_card (n : Nat) (stored : Multiset UInt64) (lane : Nat) :
    laneLoad n stored lane ≤ stored.card :=
  Multiset.countP_le_card _ _

theorem Sound.growIfNeeded_ends (h : Sound table) {k : Nat} (hk : table.capacity = 2 ^ k) :
    ∃ fuel grown, table.growIfNeeded fuel = some grown ∧ ∃ k, grown.capacity = 2 ^ k := by
  unfold growIfNeeded
  by_cases hover : table.overloaded = true
  · have hpos : 0 < table.capacity * 2 := Nat.mul_pos h.pos (by decide)
    have hpow : table.capacity * 2 = 2 ^ (k + 1) := by rw [hk, Nat.pow_succ]
    have hload : ∀ lane, laneLoad (table.capacity * 2) (hashes table.entries) lane
        ≤ laneSize (table.capacity * 2) := by
      intro lane
      calc laneLoad (table.capacity * 2) (hashes table.entries) lane
          ≤ (hashes table.entries).card := laneLoad_le_card _ _ _
        _ = (stored table.entries).card := Multiset.card_map _ _
        _ ≤ table.capacity := card_stored_le table.entries
        _ ≤ table.capacity * 2 := Nat.le_mul_of_pos_right _ (by decide)
        _ = laneSize (table.capacity * 2) := by rw [hpow, laneSize_two_pow]
    obtain ⟨fuel, grown, hgrown⟩ := (rehash_ends_iff hpos table).mpr hload
    refine ⟨fuel, grown, by rw [if_pos hover, hgrown], k + 1, ?_⟩
    rw [← hpow]
    exact (fresh_rehash hpos hgrown).1.length_eq
  · exact ⟨0, table, if_neg hover, k, hk⟩

/-- One lane with a slot to spare. -/
theorem Sound.exists_vacant (h : Sound table) (hroom : table.size < table.capacity) {k : Nat}
    (hk : table.capacity = 2 ^ k) (hash : UInt64) : ∃ j, Vacant table.entries hash j := by
  have hlength : table.entries.length = 2 ^ k := hk
  have hlt : laneLoad table.entries.length (hashes table.entries)
      (laneOf table.entries.length hash) < laneSize table.entries.length := by
    calc laneLoad table.entries.length (hashes table.entries) (laneOf table.entries.length hash)
        ≤ (hashes table.entries).card := laneLoad_le_card _ _ _
      _ = table.size := by rw [hashes, Multiset.card_map, h.size_eq]
      _ < table.entries.length := hroom
      _ = laneSize table.entries.length := by rw [hlength, laneSize_two_pow]
  obtain ⟨i, hi⟩ := (exists_vacant_iff h.pos h.settled hash).mpr hlt
  exact HashTable.exists_vacant hi

/-! ### Insertion in two steps -/

def newEntry (hash : UInt64) (value : EntryID) : Entry :=
  { hash := hash, entryId := value, probeLength := 0, occupied := true, tombstone := false }

theorem insert_eq_some_iff {key : Bytes} {value : EntryID} :
    table.insert fuel key value = some after ↔ ∃ grown result,
      table.growIfNeeded fuel = some grown
        ∧ place (some (hashKey key, value)) fuel
          (takeOff grown.entries (newEntry (hashKey key) value)) = some result
        ∧ after = { entries := result.1
                    size := if result.2 then grown.size + 1 else grown.size } := by
  simp only [insert, Option.bind_eq_bind, Option.bind_eq_some_iff]
  constructor
  · rintro ⟨grown, hgrow, result, hplace, hafter⟩
    exact ⟨grown, result, hgrow, hplace, (Option.some.inj hafter).symm⟩
  · rintro ⟨grown, result, hgrow, hplace, rfl⟩
    exact ⟨grown, hgrow, result, hplace, rfl⟩

theorem rehash_mono (hle : fuel ≤ more) {n : Nat} (h : table.rehash fuel n = some after) :
    table.rehash more n = some after :=
  rehashLoop_mono hle h

theorem growIfNeeded_mono (hle : fuel ≤ more) (h : table.growIfNeeded fuel = some after) :
    table.growIfNeeded more = some after := by
  unfold growIfNeeded at h ⊢
  split at h
  · next hover =>
    rw [if_pos hover]
    exact rehash_mono hle h
  · next hover =>
    rw [if_neg hover]
    exact h

theorem reserve_eq_some_iff {n : Nat} :
    table.reserve fuel n = some after
      ↔ (n ≤ table.capacity ∧ after = table)
        ∨ (table.capacity < n ∧ n ≤ maxSize ∧ table.rehash fuel n = some after) := by
  unfold reserve
  by_cases hlt : table.capacity < n
  · by_cases hmax : maxSize < n
    · simp [hlt, hmax, Nat.not_le.mpr hlt]
    · simp [hlt, hmax, Nat.not_le.mpr hlt, Nat.not_lt.mp hmax]
  · simp [hlt, Nat.not_lt.mp hlt, eq_comm]

theorem step_mono (hle : fuel ≤ more) {op : Op} (h : table.step fuel op = some after) :
    table.step more op = some after := by
  cases op with
  | insert key value =>
      obtain ⟨grown, result, hgrow, hplace, hafter⟩ := insert_eq_some_iff.mp h
      exact insert_eq_some_iff.mpr
        ⟨grown, result, growIfNeeded_mono hle hgrow, place_mono hplace hle, hafter⟩
  | remove key => exact h
  | reserve newCapacity =>
      simp only [step] at h ⊢
      rcases reserve_eq_some_iff.mp h with hsmall | ⟨hlt, hmax, hrehash⟩
      · exact reserve_eq_some_iff.mpr (.inl hsmall)
      · exact reserve_eq_some_iff.mpr (.inr ⟨hlt, hmax, rehash_mono hle hrehash⟩)

/-- An operation that ends does so in one way. -/
theorem Step.unique {op : Op} {first second : HashTable} (hfirst : table.Step op first)
    (hsecond : table.Step op second) : first = second := by
  obtain ⟨fuel, hfirst⟩ := hfirst
  obtain ⟨more, hsecond⟩ := hsecond
  have hleft := step_mono (Nat.le_max_left fuel more) hfirst
  have hright := step_mono (Nat.le_max_right fuel more) hsecond
  exact Option.some.inj (hleft.symm.trans hright)

/-- An insertion ends once both of its loops do. -/
theorem step_insert {key : Bytes} {value : EntryID} {grown : HashTable} {result : List Entry × Bool}
    (hgrow : table.growIfNeeded fuel = some grown)
    (hplace : place (some (hashKey key, value)) more
      (takeOff grown.entries (newEntry (hashKey key) value)) = some result) :
    table.Step (.insert key value)
      { entries := result.1, size := if result.2 then grown.size + 1 else grown.size } :=
  ⟨max fuel more, insert_eq_some_iff.mpr ⟨grown, result,
    growIfNeeded_mono (Nat.le_max_left _ _) hgrow, place_mono hplace (Nat.le_max_right _ _), rfl⟩⟩

/-- The table after an insertion. -/
theorem Inserted.sound {grown : HashTable} (h : Sound grown) {hash : UInt64} {value : EntryID}
    {result : List Entry × Bool} (hinserted : Inserted grown.entries hash value result) :
    Sound { entries := result.1, size := if result.2 then grown.size + 1 else grown.size } where
  pos := by
    rw [hinserted.length_eq]
    exact h.pos
  settled := hinserted.settled
  nodup := hinserted.nodup
  size_eq := by
    rw [hinserted.card_eq, h.size_eq]

end HashTable

end NebulaFS
