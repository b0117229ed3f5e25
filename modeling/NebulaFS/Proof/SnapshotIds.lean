import NebulaFS.SnapshotManager

/-!
# The ids of snapshots

As long as the counter is above every stored id, the next snapshot gets an id of its own
(`Above.fresh`). Every call keeps it so but the one that stores the last id, after which the counter
starts again at zero (`above_run`).
-/

namespace NebulaFS

namespace SnapshotManager

variable {manager : SnapshotManager} {calls : List Call}

/-- The last id, behind which the counter wraps. -/
def lastId : SnapshotID := 18446744073709551615

/-- The id under which a call stores a manifest. -/
def storedId (manager : SnapshotManager) : Call → Option SnapshotID
  | .createSnapshot _ _ _ => some manager.nextSnapshotId
  | .registerSnapshot manifest => if manifest.id ∈ manager.manifests then none else some manifest.id
  | .checkoutSnapshot _ | .deleteSnapshot _ _ => none

/-- Some call of the run stores a manifest under the last id. -/
def exhausts : SnapshotManager → List Call → Bool
  | _, [] => false
  | manager, call :: calls =>
      manager.storedId call = some lastId || exhausts (manager.step call) calls

/-- Snapshots are created only as long as the last id was not given to any. -/
def CreatesInTime (calls : List Call) : Prop :=
  ∀ before label currentNodes now after,
    calls = before ++ .createSnapshot label currentNodes now :: after → exhausts {} before = false

theorem exhausts_append (before after : List Call) :
    exhausts manager (before ++ after)
      = (exhausts manager before || exhausts (run manager before) after) := by
  induction before generalizing manager with
  | nil => rfl
  | cons call before ih => rw [List.cons_append, exhausts, exhausts, ih, Bool.or_assoc]; rfl

/-- The last call of a run may be the one that takes the last id. -/
theorem createsInTime_concat {call : Call} (h : exhausts {} calls = false) :
    CreatesInTime (calls ++ [call]) := by
  intro before label currentNodes now after hsplit
  obtain ⟨rest, hrest⟩ : before <+: calls := by
    have hshort : before.length < (calls ++ [call]).length := by
      rw [hsplit, List.length_append, List.length_cons]
      omega
    rw [List.length_append, List.length_singleton, Nat.lt_succ_iff] at hshort
    exact List.prefix_of_prefix_length_le ⟨_, hsplit.symm⟩ (List.prefix_append _ _) hshort
  rw [← hrest, exhausts_append, Bool.or_eq_false_iff] at h
  exact h.1

/-- A new snapshot has an id of its own, and what was stored stays until it is deleted. -/
structure NeverOverwrites (calls : List Call) : Prop where
  fresh : ∀ before label currentNodes now after,
    calls = before ++ .createSnapshot label currentNodes now :: after →
      ((run {} before).createSnapshot label currentNodes now).1 ∉ (run {} before).manifests
  kept : ∀ before after id manifest, calls = before ++ after →
    (run {} before).getSnapshot id = some manifest →
    (∀ first, .deleteSnapshot id first ∉ after) → (run {} calls).getSnapshot id = some manifest

/-- The counter is above every stored id. -/
def Above (manager : SnapshotManager) : Prop :=
  ∀ id ∈ manager.manifests, id < manager.nextSnapshotId

theorem above_start : Above {} := by
  intro id hid
  cases hid

theorem Above.fresh (h : Above manager) : manager.nextSnapshotId ∉ manager.manifests := by
  intro hmem
  exact absurd (h _ hmem) (UInt64.lt_irrefl _)

theorem lt_add_one {id : SnapshotID} (h : id ≠ lastId) : id < id + 1 := by
  have hlast : id.toNat ≠ lastId.toNat := fun heq => h (UInt64.toNat_inj.mp heq)
  have hbound := id.toNat_lt
  have hvalue : lastId.toNat = 2 ^ 64 - 1 := rfl
  rw [UInt64.lt_iff_toNat_lt, UInt64.toNat_add, UInt64.toNat_one]
  omega

theorem above_step (h : Above manager) {call : Call} (hid : manager.storedId call ≠ some lastId) :
    Above (manager.step call) := by
  cases call with
  | createSnapshot label currentNodes now =>
      have hnext : manager.nextSnapshotId < manager.nextSnapshotId + 1 :=
        lt_add_one fun heq => hid (congrArg some heq)
      intro id hmem
      rcases (AList.mem_insert _).mp hmem with rfl | hmem
      · exact hnext
      · exact UInt64.lt_trans (h id hmem) hnext
  | registerSnapshot manifest =>
      rw [step, registerSnapshot]
      rw [storedId] at hid
      split
      · exact h
      · rename_i hnew
        rw [if_neg hnew] at hid
        have hnext : manifest.id < manifest.id + 1 := lt_add_one fun heq => hid (congrArg some heq)
        intro id hmem
        simp only at hmem ⊢
        split
        · rename_i hle
          rcases (AList.mem_insert _).mp hmem with rfl | hmem
          · exact hnext
          · exact UInt64.lt_trans (UInt64.lt_of_lt_of_le (h id hmem) hle) hnext
        · rename_i hle
          rcases (AList.mem_insert _).mp hmem with rfl | hmem
          · exact UInt64.not_le.mp hle
          · exact h id hmem
  | checkoutSnapshot id =>
      rw [step, checkoutSnapshot]
      split <;> exact h
  | deleteSnapshot id first =>
      rw [step, deleteSnapshot]
      split
      · intro other hmem
        exact h other (AList.mem_erase.mp hmem).2
      · exact h

theorem above_run (h : Above manager) (hcalls : exhausts manager calls = false) :
    Above (run manager calls) := by
  induction calls generalizing manager with
  | nil => exact h
  | cons call calls ih =>
      rw [exhausts, Bool.or_eq_false_iff, decide_eq_false_iff_not] at hcalls
      exact ih (above_step h hcalls.1) hcalls.2

/-- A stored manifest stays over a call that neither deletes it nor takes its id. -/
theorem getSnapshot_step {id : SnapshotID} (hstored : id ∈ manager.manifests) {call : Call}
    (hcreate : ∀ label currentNodes now, call = .createSnapshot label currentNodes now →
      manager.nextSnapshotId ∉ manager.manifests)
    (hdelete : ∀ first, call ≠ .deleteSnapshot id first) :
    (manager.step call).getSnapshot id = manager.getSnapshot id := by
  cases call with
  | createSnapshot label currentNodes now =>
      apply AList.lookup_insert_ne
      rintro rfl
      exact hcreate label currentNodes now rfl hstored
  | registerSnapshot manifest =>
      rw [step, registerSnapshot]
      split
      · rfl
      · rename_i hnew
        apply AList.lookup_insert_ne
        rintro rfl
        exact hnew hstored
  | checkoutSnapshot other =>
      rw [step, checkoutSnapshot]
      split <;> rfl
  | deleteSnapshot other first =>
      rw [step, deleteSnapshot]
      split
      · apply AList.lookup_erase_ne
        rintro rfl
        exact hdelete first rfl
      · rfl

theorem getSnapshot_run {id : SnapshotID} (hstored : id ∈ manager.manifests)
    (hcreate : ∀ before label currentNodes now after,
      calls = before ++ .createSnapshot label currentNodes now :: after →
        (run manager before).nextSnapshotId ∉ (run manager before).manifests)
    (hdelete : ∀ first, .deleteSnapshot id first ∉ calls) :
    (run manager calls).getSnapshot id = manager.getSnapshot id := by
  induction calls generalizing manager with
  | nil => rfl
  | cons call calls ih =>
      have hstep := getSnapshot_step hstored
        (fun label currentNodes now heq => hcreate [] label currentNodes now calls (by rw [heq]; rfl))
        (fun first heq => hdelete first (heq ▸ List.mem_cons_self))
      have hafter : id ∈ (manager.step call).manifests := by
        rw [← AList.lookup_isSome] at hstored ⊢
        exact (congrArg Option.isSome hstep).trans hstored
      refine Eq.trans (ih hafter ?_ ?_) hstep
      · intro before label currentNodes now after hsplit
        exact hcreate (call :: before) label currentNodes now after (by rw [hsplit]; rfl)
      · intro first hmem
        exact hdelete first (List.mem_cons_of_mem _ hmem)

/-- **Snapshots are not overwritten** in a run that creates none once the last id is taken. -/
theorem neverOverwrites (h : CreatesInTime calls) : NeverOverwrites calls := by
  have hfresh : ∀ before label currentNodes now after,
      calls = before ++ .createSnapshot label currentNodes now :: after →
        (run {} before).nextSnapshotId ∉ (run {} before).manifests := by
    intro before label currentNodes now after hsplit
    exact (above_run above_start (h before label currentNodes now after hsplit)).fresh
  constructor
  case fresh => exact hfresh
  case kept =>
    intro before after id manifest hsplit hlookup hdelete
    have hstored : id ∈ (run {} before).manifests := by
      rw [← AList.lookup_isSome]
      exact Option.isSome_of_eq_some hlookup
    have hrun : run {} calls = run (run {} before) after := by
      rw [hsplit, run, List.foldl_append]
      rfl
    rw [hrun, getSnapshot_run hstored ?_ hdelete, hlookup]
    intro middle label currentNodes now rest hrest
    have hwhole := hfresh (before ++ middle) label currentNodes now rest
      (by rw [hsplit, hrest, List.append_assoc])
    rw [run, List.foldl_append] at hwhole
    exact hwhole

/-- Registered next to the last id and deleted again, so that the next snapshot gets the last one. -/
def upToLastId : List Call :=
  [.createSnapshot [97] [] 0, .registerSnapshot (.new 0xFFFFFFFFFFFFFFFE 0 [] 0 0),
    .deleteSnapshot 0xFFFFFFFFFFFFFFFE 1, .createSnapshot [98] [] 0]

theorem neverOverwrites_upToLastId :
    NeverOverwrites upToLastId
      ∧ ((run {} (upToLastId.take 3)).createSnapshot [98] [] 0).1 = lastId := by
  have hbefore : exhausts {} (upToLastId.take 3) = false := by decide +kernel
  exact ⟨neverOverwrites (createsInTime_concat hbefore), by decide +kernel⟩

/-- After the last id was registered, the third snapshot gets the id of the first. -/
theorem not_neverOverwrites_registerLast :
    ¬ NeverOverwrites
      [.createSnapshot [97] [] 0, .registerSnapshot { id := lastId }, .createSnapshot [98] [] 0,
        .createSnapshot [99] [] 0] := by
  intro h
  have hfresh := h.fresh [.createSnapshot [97] [] 0, .registerSnapshot { id := lastId },
    .createSnapshot [98] [] 0] [99] [] 0 [] rfl
  exact hfresh (by decide +kernel)

end SnapshotManager

end NebulaFS
