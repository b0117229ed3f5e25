import Mathlib.Data.List.Induction

/-!
# A file as the writes that made it

A file that is only ever written is determined by its sequence of positioned writes. A write past the
end fills the gap with zeros, a write of nothing changes nothing, and a crash after `k` writes leaves
the file that the first `k` of them make: `replay (writes.take k)`.

Two facts carry everything said about such files. Writes that start at `base` and follow one another
make `base` zeros and then what was written (`put_gap`), and as long as no write touches the first
`base` bytes those are zeros (`take_replay_eq_zero`).
-/

namespace SparseFile

structure Write where
  pos : Nat
  data : List UInt8
deriving DecidableEq, Repr

def put (content : List UInt8) (write : Write) : List UInt8 :=
  if write.data = [] then content
  else content.take write.pos ++ List.replicate (write.pos - content.length) 0 ++ write.data
    ++ content.drop (write.pos + write.data.length)

def replay (writes : List Write) : List UInt8 :=
  writes.foldl put []

@[simp]
theorem replay_append_singleton (writes : List Write) (write : Write) :
    replay (writes ++ [write]) = put (replay writes) write := by
  simp [replay]

/-- A gap of `base` zeros followed by `body`, which is not there at all while `body` is empty. -/
def gap (base : Nat) (body : List UInt8) : List UInt8 :=
  if body = [] then [] else List.replicate base 0 ++ body

theorem put_gap (base : Nat) (body data : List UInt8) :
    put (gap base body) ⟨base + body.length, data⟩ = gap base (body ++ data) := by
  by_cases hdata : data = []
  · simp [put, hdata]
  · by_cases hbody : body = []
    · simp [put, gap, hdata, hbody]
    · have hlength : (List.replicate base 0 ++ body).length = base + body.length := by simp
      have hafter : (List.replicate base 0 ++ body).drop (base + body.length + data.length) = [] :=
        List.drop_eq_nil_of_le (by omega)
      simp only [put, gap, hdata, hbody, if_false, List.append_eq_nil_iff, and_self]
      rw [hafter, ← hlength, List.take_length, Nat.sub_self]
      simp

theorem put_gap_head {base : Nat} {body head : List UInt8} (hbody : body ≠ [])
    (hhead : head.length = base) : put (gap base body) ⟨0, head⟩ = head ++ body := by
  subst hhead
  by_cases hnil : head = []
  · simp [put, gap, hnil, hbody]
  · simp [put, gap, hnil, hbody]

private theorem take_put_eq_zero {base : Nat} {content : List UInt8} {write : Write}
    (hcontent : ∀ b ∈ content.take base, b = 0) (hpos : base ≤ write.pos) :
    ∀ b ∈ (put content write).take base, b = 0 := by
  intro b hb
  unfold put at hb
  split at hb
  · exact hcontent b hb
  · rw [List.append_assoc, List.append_assoc, List.take_append, List.take_take,
      Nat.min_eq_left hpos] at hb
    rcases List.mem_append.mp hb with hb | hb
    · exact hcontent b hb
    · by_cases hlong : base ≤ content.length
      · have hzero : base - (content.take write.pos).length = 0 := by
          rw [List.length_take]
          omega
        rw [hzero] at hb
        simp at hb
      · have hshort : (content.take write.pos).length = content.length := by
          rw [List.length_take]
          omega
        rw [hshort, List.take_append_of_le_length (by simp; omega), List.take_replicate] at hb
        exact List.eq_of_mem_replicate hb

/-- While every write stays at or above `base`, the bytes below it are zeros. -/
theorem take_replay_eq_zero {base : Nat} {writes : List Write}
    (hwrites : ∀ write ∈ writes, base ≤ write.pos) :
    ∀ b ∈ (replay writes).take base, b = 0 := by
  induction writes using List.reverseRecOn with
  | nil => simp [replay]
  | append_singleton writes write ih =>
      rw [replay_append_singleton]
      exact take_put_eq_zero (ih fun other hother => hwrites other (by simp [hother]))
        (hwrites write (by simp))

end SparseFile
