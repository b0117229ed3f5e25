import Mathlib.Data.List.Induction
import NebulaFS.Lib.Cutting

/-!
# Hashing block by block

`chain compress state blocks` runs a compression function over blocks of one size. An `Absorber` is
the streaming side of it: it takes an element at a time and compresses whenever a block is full, so
that it stands for the message so far (`Absorbed`) however that came in. Where the blocks of two
messages end alike in nothing but themselves, equal chains of different messages show two different
inputs that the compression function takes to one value (`collision_of_chain_eq`).
-/

namespace MerkleDamgard

open Cutting

variable {σ α : Type*}

section Chain

variable (compress : σ → List α → σ)

def chain (state : σ) (blocks : List (List α)) : σ := blocks.foldl compress state

/-- The inputs of the compression function along the chain. -/
def inputs : (state : σ) → (blocks : List (List α)) → List (σ × List α)
  | _, [] => []
  | state, block :: blocks => (state, block) :: inputs (compress state block) blocks

variable {compress} {state : σ} {blocks others : List (List α)}

theorem chain_append (blocks others : List (List α)) :
    chain compress state (blocks ++ others) = chain compress (chain compress state blocks) others :=
  List.foldl_append

theorem inputs_append (blocks others : List (List α)) :
    inputs compress state (blocks ++ others)
      = inputs compress state blocks ++ inputs compress (chain compress state blocks) others := by
  induction blocks generalizing state with
  | nil => rfl
  | cons block blocks ih =>
      rw [List.cons_append, inputs, inputs, ih, List.cons_append]
      rfl

/-- Two inputs that are taken to one value. -/
def Collision (compress : σ → List α → σ) (left right : List (σ × List α)) : Prop :=
  ∃ x ∈ left, ∃ y ∈ right, x ≠ y ∧ compress x.1 x.2 = compress y.1 y.2

/-- Equal chains collide on the way, unless the blocks of one are the last blocks of the other. -/
theorem collision_of_chain_eq (h : chain compress state blocks = chain compress state others)
    (hleft : ¬ blocks <:+ others) (hright : ¬ others <:+ blocks) :
    Collision compress (inputs compress state blocks) (inputs compress state others) := by
  induction blocks using List.reverseRecOn generalizing others with
  | nil => exact (hleft List.nil_suffix).elim
  | append_singleton blocks block ih =>
      obtain ⟨init, last, rfl⟩ : ∃ init last, others = init ++ [last] := by
        rcases List.eq_nil_or_concat others with rfl | ⟨init, last, hothers⟩
        · exact (hright List.nil_suffix).elim
        · exact ⟨init, last, by rw [hothers, List.concat_eq_append]⟩
      rw [chain_append, chain_append] at h
      rw [inputs_append, inputs_append]
      by_cases hsame : (chain compress state blocks, block) = (chain compress state init, last)
      · obtain ⟨hchain, rfl⟩ := Prod.mk.inj hsame
        have hsuffix : ∀ {shorter longer : List (List α)}, shorter <:+ longer →
            shorter ++ [block] <:+ longer ++ [block] := by
          rintro shorter longer ⟨front, rfl⟩
          exact ⟨front, (List.append_assoc ..).symm⟩
        obtain ⟨x, hx, y, hy, hxy⟩ := ih hchain (fun hsuf => hleft (hsuffix hsuf))
          fun hsuf => hright (hsuffix hsuf)
        exact ⟨x, List.mem_append_left _ hx, y, List.mem_append_left _ hy, hxy⟩
      · refine ⟨_, List.mem_append_right _ (List.mem_singleton_self _), _,
          List.mem_append_right _ (List.mem_singleton_self _), hsame, h⟩

end Chain

/-! ### One element at a time -/

structure Absorber (σ α : Type*) where
  state : σ
  pending : List α := []

def absorb (compress : σ → List α → σ) (size : Nat) (absorber : Absorber σ α) (x : α) :
    Absorber σ α :=
  if (absorber.pending ++ [x]).length = size then
    { state := compress absorber.state (absorber.pending ++ [x]) }
  else { absorber with pending := absorber.pending ++ [x] }

variable {compress : σ → List α → σ} {size : Nat} {start : σ} {message data : List α}
  {absorber : Absorber σ α}

/-- The absorber stands for a message. -/
def Absorbed (compress : σ → List α → σ) (size : Nat) (start : σ) (message : List α)
    (absorber : Absorber σ α) : Prop :=
  ∃ blocks : List (List α), (∀ block ∈ blocks, block.length = size)
    ∧ message = blocks.flatten ++ absorber.pending ∧ absorber.pending.length < size
    ∧ absorber.state = chain compress start blocks

theorem absorbed_start (hsize : 0 < size) : Absorbed compress size start [] { state := start } :=
  ⟨[], by simp, rfl, hsize, rfl⟩

theorem Absorbed.absorb (h : Absorbed compress size start message absorber) (x : α) :
    Absorbed compress size start (message ++ [x])
      (MerkleDamgard.absorb compress size absorber x) := by
  obtain ⟨blocks, hblocks, rfl, hpending, hstate⟩ := h
  rw [MerkleDamgard.absorb]
  by_cases hfull : (absorber.pending ++ [x]).length = size
  · rw [if_pos hfull]
    refine ⟨blocks ++ [absorber.pending ++ [x]], ?_, ?_, Nat.zero_lt_of_lt hpending, ?_⟩
    · intro block hblock
      rcases List.mem_append.mp hblock with hold | hnew
      · exact hblocks block hold
      · rw [List.mem_singleton.mp hnew]
        exact hfull
    · rw [List.flatten_append, List.flatten_singleton, List.append_nil, List.append_assoc]
    · rw [chain_append, ← hstate]
      rfl
  · rw [if_neg hfull]
    refine ⟨blocks, hblocks, List.append_assoc .., ?_, hstate⟩
    rw [List.length_append, List.length_singleton] at hfull ⊢
    omega

/-! ### The blocks of a padded message -/

theorem blocks_flatten (hsize : 0 < size) {blocks : List (List α)}
    (hblocks : ∀ block ∈ blocks, block.length = size) : Cutting.blocks size blocks.flatten = blocks := by
  induction blocks with
  | nil => exact blocks_nil hsize
  | cons block blocks ih =>
      have hblock := hblocks block (List.mem_cons_self ..)
      have hne : (block :: blocks).flatten ≠ [] := by
        rw [List.flatten_cons]
        exact List.append_ne_nil_of_left_ne_nil (List.ne_nil_of_length_pos (by omega)) _
      rw [blocks_of_ne_nil hsize hne, List.flatten_cons, List.take_left' hblock,
        List.drop_left' hblock, ih fun other hother => hblocks other (List.mem_cons_of_mem _ hother)]

/-- What the last blocks, put behind an absorbed message, come to. -/
theorem Absorbed.chain_eq (h : Absorbed compress size start message absorber) {padding : List α}
    {last : List (List α)} (hlast : ∀ block ∈ last, block.length = size)
    (hpadding : absorber.pending ++ padding = last.flatten) :
    chain compress absorber.state last
      = chain compress start (Cutting.blocks size (message ++ padding)) := by
  obtain ⟨blocks, hblocks, rfl, hpending, hstate⟩ := h
  have hall : ∀ block ∈ blocks ++ last, block.length = size := fun block hblock =>
    (List.mem_append.mp hblock).elim (hblocks block) (hlast block)
  rw [List.append_assoc, hpadding, ← List.flatten_append,
    blocks_flatten (Nat.zero_lt_of_lt hpending) hall, chain_append, hstate]

end MerkleDamgard
