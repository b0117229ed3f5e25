import NebulaFS.Proof.DirectoryTreeLemmas
import NebulaFS.Proof.StreamCuts

/-!
# Where the decoder of the directory tree leaves its input

`deserializeNode` adds the position and the length of a name in a word. A length close to the word size
brings the sum round to a small number, the check passes, and the name is taken from outside. The nodes
stand one after the other with their children behind them, so the decoder is always at some offset with
some number of nodes still due, and `WrapAhead` says from there that it comes to such a length.
`deserialize_inBounds_iff_no_wrap` says that nothing else can leave the input.
-/

namespace NebulaFS

open Cursor

namespace DirectoryTree

variable {data : Bytes} {offset start next due fuel : Nat} {nameLen childCount : UInt64}

/-! ### What stands at a node -/

/-- What follows the name of a node up to the number of its children. -/
def readBody (data : Bytes) (offset : Nat) : Except (Fault ErrorCode) (UInt64 × Nat) := do
  let (_, offset) ← readVarInt .corruptDirectory data offset
  let (_, offset) ← readVarInt .corruptDirectory data offset
  let (fileCount, offset) ← readVarInt .corruptDirectory data offset
  match readMany (readVarInt .corruptDirectory data) fileCount.toNat offset with
  | .error (_, e) => .error e
  | .ok (_, offset) => readVarInt .corruptDirectory data offset

/-- A name ends beyond the input, and the sum in a word does not. -/
def Wraps (data : Bytes) (start : Nat) (nameLen : UInt64) : Prop :=
  data.length < start + nameLen.toNat ∧ (start + nameLen.toNat) % wordSize ≤ data.length

/-- With so many nodes due from an offset on, the decoder comes to a name that wraps. -/
inductive WrapAhead (data : Bytes) : (due offset : Nat) → Prop
  | here {due offset start : Nat} {nameLen : UInt64}
      (hname : readVarInt .corruptDirectory data offset = .ok (nameLen, start))
      (hwraps : Wraps data start nameLen) : WrapAhead data (due + 1) offset
  | behind {due offset start next : Nat} {nameLen childCount : UInt64}
      (hname : readVarInt .corruptDirectory data offset = .ok (nameLen, start))
      (hfits : start + nameLen.toNat ≤ data.length)
      (hbody : readBody data (start + nameLen.toNat) = .ok (childCount, next))
      (hahead : WrapAhead data (due + childCount.toNat) next) : WrapAhead data (due + 1) offset

theorem readBody_inside (h : offset ≤ data.length) :
    Yields (· = .returned .corruptDirectory) (fun found => offset < found.2 ∧ found.2 ≤ data.length)
      (readBody data offset) := by
  have hread : ∀ {pos : Nat}, pos ≤ data.length → Yields (· = .returned .corruptDirectory)
      (fun found => pos < found.2 ∧ found.2 ≤ data.length) (readVarInt .corruptDirectory data pos) :=
    fun hpos => readVarInt_inside .corruptDirectory hpos
  refine (hread h).bind fun id hid => ?_
  refine (hread hid.2).bind fun parentId hparent => ?_
  refine (hread hparent.2).bind fun fileCount hcount => ?_
  have hfile : ∀ pos, fileCount.2 ≤ pos → pos ≤ data.length → Yields (· = .returned .corruptDirectory)
      (fun found => pos ≤ found.2 ∧ found.2 ≤ data.length) (readVarInt .corruptDirectory data pos) :=
    fun pos _ hpos => (hread hpos).mono fun found hfound => ⟨Nat.le_of_lt hfound.1, hfound.2⟩
  have hfiles := readMany_advances hfile fileCount.1.toNat (Nat.le_refl _) hcount.2
  cases hmany : readMany (readVarInt .corruptDirectory data) fileCount.1.toNat fileCount.2 with
  | error failed =>
      rw [hmany] at hfiles
      simp only [hmany]
      exact hfiles
  | ok found =>
      rw [hmany] at hfiles
      simp only [hmany]
      refine (hread hfiles.2).mono fun children hchildren => ⟨?_, hchildren.2⟩
      have hforward := hfiles.1
      omega

theorem not_wrapAhead_of_no_name {e : Fault ErrorCode}
    (h : readVarInt .corruptDirectory data offset = .error e) : ¬ WrapAhead data (due + 1) offset := by
  intro hahead
  cases hahead with
  | here hname _ => cases h.symm.trans hname
  | behind hname _ _ _ => cases h.symm.trans hname

theorem not_wrapAhead_of_refused (hname : readVarInt .corruptDirectory data offset = .ok (nameLen, start))
    (h : data.length < (start + nameLen.toNat) % wordSize) : ¬ WrapAhead data (due + 1) offset := by
  have hle := Nat.mod_le (start + nameLen.toNat) wordSize
  intro hahead
  cases hahead with
  | here hname' hwraps =>
      cases hname.symm.trans hname'
      have := hwraps.2
      omega
  | behind hname' hfits _ _ =>
      cases hname.symm.trans hname'
      omega

/-- Behind a name that fits, it is the body that says what comes. -/
theorem wrapAhead_succ_iff (hname : readVarInt .corruptDirectory data offset = .ok (nameLen, start))
    (hfits : start + nameLen.toNat ≤ data.length) :
    WrapAhead data (due + 1) offset ↔ ∃ childCount next,
      readBody data (start + nameLen.toNat) = .ok (childCount, next)
        ∧ WrapAhead data (due + childCount.toNat) next := by
  constructor
  · intro hahead
    cases hahead with
    | here hname' hwraps =>
        cases hname.symm.trans hname'
        have := hwraps.1
        omega
    | behind hname' _ hbody hahead =>
        cases hname.symm.trans hname'
        exact ⟨_, _, hbody, hahead⟩
  · rintro ⟨childCount, next, hbody, hahead⟩
    exact .behind hname hfits hbody hahead

/-! ### What the decoder makes of it -/

/-- Where a read ends, whatever it has read. -/
def ending {α ε : Type} (fault : ε → Fault ErrorCode) :
    Except ε (α × Nat) → Except (Fault ErrorCode) Nat
  | .ok (_, next) => .ok next
  | .error e => .error (fault e)

/-- What a node keeps of itself at an early return does not matter to where the read ends. -/
theorem ending_leaving_bind {α : Type} (node : DirectoryNode) (read : Except (Fault ErrorCode) α)
    (rest : α → Except (DirectoryNode × Fault ErrorCode) (DirectoryNode × Nat)) :
    ending (·.2) (leaving node read >>= rest) = read >>= fun value => ending (·.2) (rest value) := by
  cases read with
  | error e => rfl
  | ok value => rfl

theorem ending_deserializeNode (fuel : Nat) (node : DirectoryNode) (offset : Nat) :
    ending (·.2) (deserializeNode data (fuel + 1) node offset) = (do
      let (nameLen, start) ← readVarInt .corruptDirectory data offset
      require ((start + nameLen.toNat) % wordSize ≤ data.length) .corruptDirectory
      let (_, start) ← readRange data start nameLen.toNat
      let (childCount, next) ← readBody data start
      ending (·.2.2) (readMany (deserializeNode data fuel {}) childCount.toNat next)) := by
  rw [deserializeNode, ending_leaving_bind]
  apply bind_congr
  rintro ⟨nameLen, start⟩
  rw [ending_leaving_bind]
  apply bind_congr
  intro _
  rw [ending_leaving_bind]
  apply bind_congr
  rintro ⟨name, bodyAt⟩
  -- the body, in one piece on the right
  simp only [readBody, bind_assoc]
  rw [ending_leaving_bind]
  apply bind_congr
  rintro ⟨id, afterId⟩
  rw [ending_leaving_bind]
  apply bind_congr
  rintro ⟨parentId, afterParent⟩
  rw [ending_leaving_bind]
  apply bind_congr
  rintro ⟨fileCount, filesAt⟩
  simp only
  cases readMany (readVarInt .corruptDirectory data) fileCount.toNat filesAt with
  | error failed => rfl
  | ok found =>
      simp only
      rw [ending_leaving_bind]
      apply bind_congr
      rintro ⟨childCount, next⟩
      simp only
      cases readMany (deserializeNode data fuel {}) childCount.toNat next with
      | error failed => rfl
      | ok children => rfl

/-- The decoder ends here, at a name that wraps if it leaves the input and before any if not. -/
def Stops (data : Bytes) (count offset : Nat) (e : Fault ErrorCode) : Prop :=
  (e = .returned .corruptDirectory ∧ ∀ due, ¬ WrapAhead data (due + count) offset)
    ∨ (e = .outOfBounds ∧ ∀ due, WrapAhead data (due + count) offset)

/-- The decoder gets over so many nodes, and no name of theirs wraps. -/
structure Passes (data : Bytes) (count offset next : Nat) : Prop where
  le_next : offset ≤ next
  le_length : next ≤ data.length
  ahead_iff : ∀ due, WrapAhead data (due + count) offset ↔ WrapAhead data due next

def Settles (data : Bytes) (count offset : Nat) : Except (Fault ErrorCode) Nat → Prop :=
  Yields (Stops data count offset) (Passes data count offset)

theorem settles_of_iff {count other pos : Nat} {result : Except (Fault ErrorCode) Nat}
    (hle : offset ≤ pos)
    (hiff : ∀ due, WrapAhead data (due + count) offset ↔ WrapAhead data (due + other) pos)
    (h : Settles data other pos result) : Settles data count offset result := by
  cases result with
  | error e =>
      rcases h with ⟨he, hnone⟩ | ⟨he, hall⟩
      · exact .inl ⟨he, fun due hahead => hnone due ((hiff due).mp hahead)⟩
      · exact .inr ⟨he, fun due => (hiff due).mpr (hall due)⟩
  | ok next =>
      have hpasses : Passes data other pos next := h
      exact ⟨Nat.le_trans hle hpasses.le_next, hpasses.le_length,
        fun due => (hiff due).trans (hpasses.ahead_iff due)⟩

/-- The children of a node are settled one after the other. -/
theorem settles_readMany {read : Nat → Except (DirectoryNode × Fault ErrorCode) (DirectoryNode × Nat)}
    {limit : Nat} (hread : ∀ pos, limit ≤ pos → pos ≤ data.length →
      Settles data 1 pos (ending (·.2) (read pos)))
    (count : Nat) {pos : Nat} (hlimit : limit ≤ pos) (hpos : pos ≤ data.length) :
    Settles data count pos (ending (·.2.2) (readMany read count pos)) := by
  induction count generalizing pos with
  | zero => exact ⟨Nat.le_refl _, hpos, fun _ => Iff.rfl⟩
  | succ count ih =>
      have hhead := hread pos hlimit hpos
      rw [readMany]
      cases hnode : read pos with
      | error failed =>
          rw [hnode] at hhead
          rcases hhead with ⟨he, hnone⟩ | ⟨he, hall⟩
          · exact .inl ⟨he, fun due => hnone (due + count)⟩
          · exact .inr ⟨he, fun due => hall (due + count)⟩
      | ok found =>
          obtain ⟨node, mid⟩ := found
          rw [hnode] at hhead
          have hpasses : Passes data 1 pos mid := hhead
          have htail := ih (Nat.le_trans hlimit hpasses.le_next) hpasses.le_length
          have hwhole : Settles data (count + 1) pos (ending (·.2.2) (readMany read count mid)) :=
            settles_of_iff hpasses.le_next (fun due => hpasses.ahead_iff (due + count)) htail
          simp only
          cases hrest : readMany read count mid with
          | error failed =>
              rw [hrest] at hwhole
              exact hwhole
          | ok found =>
              rw [hrest] at hwhole
              exact hwhole

theorem settles_deserializeNode (node : DirectoryNode) (hoffset : offset ≤ data.length)
    (hfuel : data.length - offset < fuel) :
    Settles data 1 offset (ending (·.2) (deserializeNode data fuel node offset)) := by
  induction fuel generalizing node offset with
  | zero => exact absurd hfuel (Nat.not_lt_zero _)
  | succ fuel ih =>
      have hlength := readVarInt_inside .corruptDirectory hoffset
      rw [ending_deserializeNode]
      cases hname : readVarInt .corruptDirectory data offset with
      | error e =>
          rw [hname] at hlength
          exact .inl ⟨hlength, fun due => not_wrapAhead_of_no_name hname⟩
      | ok found =>
          obtain ⟨nameLen, start⟩ := found
          rw [hname] at hlength
          simp only [bind, Except.bind]
          by_cases hsum : (start + nameLen.toNat) % wordSize ≤ data.length
          · rw [require, if_pos (decide_eq_true hsum)]
            simp only [readRange]
            by_cases hfits : start + nameLen.toNat ≤ data.length
            · have hiff : ∀ due, WrapAhead data (due + 1) offset ↔ ∃ childCount next,
                  readBody data (start + nameLen.toNat) = .ok (childCount, next)
                    ∧ WrapAhead data (due + childCount.toNat) next :=
                fun due => wrapAhead_succ_iff hname hfits
              have hbody := readBody_inside hfits
              rw [if_pos hfits]
              simp only
              cases hread : readBody data (start + nameLen.toNat) with
              | error e =>
                  rw [hread] at hbody
                  refine .inl ⟨hbody, ?_⟩
                  rintro due hahead
                  obtain ⟨childCount, next, hok, -⟩ := (hiff due).mp hahead
                  cases hread.symm.trans hok
              | ok found =>
                  obtain ⟨childCount, next⟩ := found
                  rw [hread] at hbody
                  have hlt : offset < next := by
                    have := hlength.1
                    have := hbody.1
                    omega
                  have hchild : ∀ pos, next ≤ pos → pos ≤ data.length →
                      Settles data 1 pos (ending (·.2) (deserializeNode data fuel {} pos)) :=
                    fun pos hpos hinside => ih {} hinside (by omega)
                  have hchildren := settles_readMany hchild childCount.toNat (Nat.le_refl _) hbody.2
                  refine settles_of_iff (Nat.le_of_lt hlt) ?_ hchildren
                  intro due
                  rw [hiff due]
                  constructor
                  · rintro ⟨_, _, hok, hahead⟩
                    cases hread.symm.trans hok
                    exact hahead
                  · intro hahead
                    exact ⟨_, _, hread, hahead⟩
            · rw [if_neg hfits]
              exact .inr ⟨rfl, fun due => .here hname ⟨Nat.not_le.mp hfits, hsum⟩⟩
          · rw [require, if_neg (by rw [decide_eq_true_eq]; exact hsum)]
            exact .inl ⟨rfl, fun due => not_wrapAhead_of_refused hname (Nat.not_le.mp hsum)⟩

/-- **When decoding stays inside its input**: when it comes to no name with a length that brings the sum
of the check round the word. -/
theorem deserialize_inBounds_iff_no_wrap (data : Bytes) :
    ((deserialize data).2 = none ∨ (deserialize data).2 = some (.returned .corruptDirectory))
      ↔ ∀ count start, readVarInt .corruptDirectory data 0 = .ok (count, start) →
          ¬ WrapAhead data 1 start := by
  have hcount := readVarInt_inside .corruptDirectory (Nat.zero_le data.length)
  rw [deserialize]
  cases hread : readVarInt .corruptDirectory data 0 with
  | error e =>
      rw [hread] at hcount
      obtain rfl : e = .returned .corruptDirectory := hcount
      exact iff_of_true (.inr rfl) fun count start hok => by cases hok
  | ok found =>
      obtain ⟨count, start⟩ := found
      rw [hread] at hcount
      have hfuel : data.length - start < data.length + 1 := by omega
      have hroot := settles_deserializeNode clear.root hcount.2 hfuel
      have hahead : (∀ count' start', (Except.ok (count, start) : Read UInt64) = .ok (count', start') →
          ¬ WrapAhead data 1 start') ↔ ¬ WrapAhead data 1 start := by
        constructor
        · intro h
          exact h count start rfl
        · rintro h _ _ ⟨⟩
          exact h
      rw [hahead]
      simp only
      cases hnode : deserializeNode data (data.length + 1) clear.root start with
      | error failed =>
          obtain ⟨root, e⟩ := failed
          rw [hnode] at hroot
          rcases hroot with ⟨rfl, hnone⟩ | ⟨rfl, hall⟩
          · exact iff_of_true (.inr rfl) (by simpa using hnone 0)
          · refine iff_of_false ?_ (by simpa using hall 0)
            rintro (h | h) <;> cases h
      | ok found =>
          obtain ⟨root, last⟩ := found
          rw [hnode] at hroot
          have hpasses : Passes data 1 start last := hroot
          refine iff_of_true (.inl rfl) ?_
          intro h
          cases (hpasses.ahead_iff 0).mp (by simpa using h)

/-- A root whose name is said to take `2 ^ 64 - 11` bytes, at position 11 of an input of 11 bytes. -/
theorem not_inBounds_of_long_name :
    let data : Bytes := 0 :: VarInt.encode 0xFFFFFFFFFFFFFFF5
    data.length = 11 ∧ (deserialize data).2 = some .outOfBounds := by
  decide +kernel

end DirectoryTree

end NebulaFS
