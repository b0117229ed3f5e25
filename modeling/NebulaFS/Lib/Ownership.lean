import Mathlib.Data.List.Count
import Mathlib.Data.List.Nodup
import Mathlib.Data.List.Perm.Basic

/-!
# Who owns what is allocated

A heap is a list of live addresses, and remembers whether anything was used or deleted that was not
live. `Owns heap owners lost` accounts for every live address once: it is among the owners, or it is
lost, which nobody will delete. An allocation adds an owner, a deletion takes one away, and deleting a
list of addresses goes well exactly when they are live and all different (`deleteAll_sound_iff`).
-/

namespace Ownership

variable {α β : Type*} [DecidableEq α]

structure Heap (α : Type*) where
  live : List α := []
  faulty : Bool := false
deriving DecidableEq

namespace Heap

def allocate (heap : Heap α) (a : α) : Heap α := { heap with live := a :: heap.live }

def use (heap : Heap α) (a : α) : Heap α :=
  if a ∈ heap.live then heap else { heap with faulty := true }

def delete (heap : Heap α) (a : α) : Heap α :=
  if a ∈ heap.live then { heap with live := heap.live.erase a } else { heap with faulty := true }

def deleteAll (heap : Heap α) (addresses : List α) : Heap α := addresses.foldl delete heap

structure Owns (heap : Heap α) (owners lost : List α) : Prop where
  sound : heap.faulty = false
  nodup : heap.live.Nodup
  count : ∀ a, heap.live.count a = owners.count a + lost.count a

variable {heap : Heap α} {owners lost freed : List α} {a : α}

theorem owns_empty : ({} : Heap α).Owns [] [] :=
  ⟨rfl, List.nodup_nil, fun _ => rfl⟩

theorem Owns.congr (h : heap.Owns owners lost) {owners' lost' : List α}
    (hcount : ∀ a, owners'.count a + lost'.count a = owners.count a + lost.count a) :
    heap.Owns owners' lost' :=
  ⟨h.sound, h.nodup, fun a => (h.count a).trans (hcount a).symm⟩

theorem Owns.count_le_one (h : heap.Owns owners lost) (a : α) :
    owners.count a + lost.count a ≤ 1 := by
  rw [← h.count a]
  exact List.nodup_iff_count_le_one.mp h.nodup a

theorem Owns.mem (h : heap.Owns owners lost) (ha : a ∈ owners) : a ∈ heap.live := by
  have hpos := List.count_pos_iff.mpr ha
  have hcount := h.count a
  exact List.count_pos_iff.mp (by omega)

theorem Owns.not_mem (h : heap.Owns owners lost) (ha : a ∉ heap.live) : a ∉ owners :=
  fun howner => ha (h.mem howner)

theorem Owns.use (h : heap.Owns owners lost) (ha : a ∈ owners) : heap.use a = heap :=
  if_pos (h.mem ha)

theorem Owns.allocate (h : heap.Owns owners lost) (ha : a ∉ heap.live) :
    (heap.allocate a).Owns (a :: owners) lost := by
  refine ⟨h.sound, List.nodup_cons.mpr ⟨ha, h.nodup⟩, fun b => ?_⟩
  have hcount := h.count b
  simp only [Heap.allocate, List.count_cons]
  omega

theorem Owns.delete (h : heap.Owns (a :: owners) lost) : (heap.delete a).Owns owners lost := by
  have hlive := h.mem (List.mem_cons_self ..)
  rw [Heap.delete, if_pos hlive]
  refine ⟨h.sound, h.nodup.erase a, fun b => ?_⟩
  have hcount := h.count b
  simp only [List.count_erase, List.count_cons] at hcount ⊢
  split at hcount <;> split <;> simp_all

theorem Owns.deleteAll (h : heap.Owns (freed ++ owners) lost) :
    (heap.deleteAll freed).Owns owners lost := by
  induction freed generalizing heap with
  | nil => exact h
  | cons a freed ih => exact ih h.delete

theorem Owns.live_eq_nil (h : heap.Owns [] []) : heap.live = [] :=
  List.eq_nil_iff_forall_not_mem.mpr fun a ha => by
    have hpos := List.count_pos_iff.mpr ha
    have hcount := h.count a
    simp at hcount
    omega

theorem delete_faulty (h : heap.faulty = true) (a : α) : (heap.delete a).faulty = true := by
  rw [delete]
  split
  · exact h
  · rfl

theorem deleteAll_faulty (h : heap.faulty = true) (freed : List α) :
    (heap.deleteAll freed).faulty = true := by
  induction freed generalizing heap with
  | nil => exact h
  | cons a freed ih => exact ih (delete_faulty h a)

/-- Deleting a list goes well exactly when everything on it is live and on it once. -/
theorem deleteAll_sound_iff (hsound : heap.faulty = false) (hnodup : heap.live.Nodup)
    (freed : List α) :
    (heap.deleteAll freed).faulty = false ↔ freed.Nodup ∧ ∀ a ∈ freed, a ∈ heap.live := by
  induction freed generalizing heap with
  | nil => simp [deleteAll, hsound]
  | cons a freed ih =>
      rw [deleteAll, List.foldl_cons, ← deleteAll]
      by_cases hlive : a ∈ heap.live
      · have hdelete : heap.delete a = { heap with live := heap.live.erase a } := if_pos hlive
        have hrest : (Heap.deleteAll { heap with live := heap.live.erase a } freed).faulty = false
            ↔ freed.Nodup ∧ ∀ b ∈ freed, b ∈ heap.live.erase a := ih hsound (hnodup.erase a)
        rw [hdelete, hrest, List.nodup_cons]
        simp only [hnodup.mem_erase_iff, List.mem_cons, forall_eq_or_imp]
        constructor
        · rintro ⟨hdistinct, hall⟩
          exact ⟨⟨fun hmem => (hall a hmem).1 rfl, hdistinct⟩, hlive, fun b hb => (hall b hb).2⟩
        · rintro ⟨⟨hfresh, hdistinct⟩, -, hall⟩
          exact ⟨hdistinct, fun b hb => ⟨fun hb' => hfresh (hb' ▸ hb), hall b hb⟩⟩
      · have hfault : (heap.delete a).faulty = true := by rw [delete, if_neg hlive]
        rw [deleteAll_faulty hfault]
        exact iff_of_false (by decide) fun h => hlive (h.2 a (List.mem_cons_self ..))

end Heap

/-! ### Holders that change one at a time -/

theorem count_cons_split (head a : α) (tail : List α) :
    (head :: tail).count a = [head].count a + tail.count a := by
  rw [← List.count_append]
  rfl

theorem count_flatMap_set (holds : β → List α) {holders : List β} {i : Nat} {old : β}
    (hold : holders[i]? = some old) (new : β) (a : α) :
    ((holders.set i new).flatMap holds).count a + (holds old).count a
      = (holders.flatMap holds).count a + (holds new).count a := by
  induction holders generalizing i with
  | nil => cases hold
  | cons head holders ih =>
      cases i with
      | zero =>
          obtain rfl := Option.some.inj hold
          simp only [List.set_cons_zero, List.flatMap_cons, List.count_append]
          omega
      | succ i =>
          have htail := ih hold
          simp only [List.set_cons_succ, List.flatMap_cons, List.count_append]
          omega

omit [DecidableEq α] in
theorem mem_flatMap_of_getElem? (holds : β → List α) {holders : List β} {i : Nat} {old : β} {a : α}
    (hold : holders[i]? = some old) (ha : a ∈ holds old) : a ∈ holders.flatMap holds :=
  List.mem_flatMap.mpr ⟨old, List.mem_of_getElem? hold, ha⟩

end Ownership
