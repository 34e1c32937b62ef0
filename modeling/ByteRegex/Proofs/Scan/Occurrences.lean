import ByteRegex.Proofs.Scan.Whole

/-!
# Occurrences that do not overlap

Where every match has the same length, a scan of a whole buffer reports the places of a property
from left to right, each at or behind the end of the one before (`LeftToRight`). There is only one
such list of places (`LeftToRight.unique`).
-/

namespace ByteRegex

/-- Places with a property, from left to right, no two of which are closer than a length. None is
left out unless it is closer than that to a listed one before it. -/
structure LeftToRight (P : Nat → Prop) (length : Nat) (places : List Nat) : Prop where
  holds : ∀ p ∈ places, P p
  apart : places.Pairwise fun p q => p + length ≤ q
  complete : ∀ p, P p → ∃ q ∈ places, q ≤ p ∧ p < q + length

namespace LeftToRight

variable {P : Nat → Prop} {length p : Nat} {ps qs : List Nat}

/-- The first place is the least one. -/
theorem le_of_cons (h : LeftToRight P length (p :: ps)) {q : Nat} (hq : P q) : p ≤ q := by
  obtain ⟨r, hr, hrq, -⟩ := h.complete q hq
  rcases List.mem_cons.mp hr with rfl | hr
  · exact hrq
  · have := (List.pairwise_cons.mp h.apart).1 r hr
    omega

theorem isLeast (h : LeftToRight P length (p :: ps)) : IsLeast {q | P q} p :=
  ⟨h.holds p List.mem_cons_self, fun _ hq => h.le_of_cons hq⟩

theorem eq_nil_iff (h : LeftToRight P length ps) : ps = [] ↔ ∀ p, ¬ P p := by
  constructor
  · rintro rfl p hp
    obtain ⟨q, hq, -⟩ := h.complete p hp
    cases hq
  · intro hnone
    exact List.eq_nil_iff_forall_not_mem.mpr fun p hp => hnone p (h.holds p hp)

/-- Behind the first place, the others are those of what is left. -/
theorem tail (h : LeftToRight P length (p :: ps)) :
    LeftToRight (fun q => P q ∧ p + length ≤ q) length ps where
  holds q hq := ⟨h.holds q (List.mem_cons_of_mem p hq), (List.pairwise_cons.mp h.apart).1 q hq⟩
  apart := (List.pairwise_cons.mp h.apart).2
  complete q hq := by
    obtain ⟨r, hr, hrq, hqr⟩ := h.complete q hq.1
    rcases List.mem_cons.mp hr with rfl | hr
    · exact absurd hqr (Nat.not_lt.mpr hq.2)
    · exact ⟨r, hr, hrq, hqr⟩

/-- **The places are determined.** -/
theorem unique (h : LeftToRight P length ps) (h' : LeftToRight P length qs) : ps = qs := by
  induction ps generalizing P qs with
  | nil => exact (h'.eq_nil_iff.mpr (h.eq_nil_iff.mp rfl)).symm
  | cons p ps ih =>
    cases qs with
    | nil => exact absurd (h.holds p List.mem_cons_self) (h'.eq_nil_iff.mp rfl p)
    | cons q qs =>
      obtain rfl : p = q := h.isLeast.unique h'.isLeast
      rw [ih h.tail h'.tail]

end LeftToRight

/-- **Leftmost-longest matches of one length are the places that have a match**, from left to
right. -/
theorem LeftmostLongest.leftToRight {longest : Nat → Option Nat} {last length : Nat}
    {fs : List Found} (h : LeftmostLongest longest last fs) (hpos : 0 < length)
    (hlength : ∀ p l, longest p = some l → l = length)
    (hlast : ∀ p, longest p = some length → p ≤ last) :
    LeftToRight (fun p => longest p = some length) length (fs.map (·.offset)) := by
  have hfs : ∀ f ∈ fs, f.length = length := fun f hf => hlength _ _ (h.longest_eq f hf)
  refine ⟨?_, ?_, ?_⟩
  · intro p hp
    obtain ⟨f, hf, rfl⟩ := List.mem_map.mp hp
    rw [h.longest_eq f hf, hfs f hf]
  · rw [List.pairwise_map]
    refine h.apart.imp_of_mem fun {f g} hf _ hfg => ?_
    have := hfs f hf
    omega
  · intro p hp
    obtain ⟨f, hf, hfp⟩ := h.complete p (hlast p hp) (hp ▸ rfl)
    refine ⟨f.offset, List.mem_map_of_mem hf, ?_⟩
    have := hfs f hf
    omega

end ByteRegex
