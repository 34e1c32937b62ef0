import ByteRegex.Scan
import Mathlib.Order.Bounds.Defs

/-!
# Leftmost-longest matches

Given the length of the longest match at each offset, `foundsFrom` lists the matches of a scan: the
first offset with a match, then the first one with a match behind that, and so on. `LeftmostLongest`
says what makes such a list right, without saying how it is made: matches are the longest where they
begin, lie apart, and leave out no offset with a match unless it is inside another one.
-/

namespace ByteRegex

/-- The matches from an offset on, given the longest match at each offset up to `last`. A match of
no bytes moves the scan by one byte. -/
def foundsFrom (longest : Nat → Option Nat) (last pos : Nat) : List Found :=
  if pos ≤ last then
    match longest pos with
    | some length => ⟨pos, length⟩ :: foundsFrom longest last (pos + max length 1)
    | none => foundsFrom longest last (pos + 1)
  else []
termination_by last + 1 - pos

/-- Matches in order are the leftmost-longest ones of the offsets up to `last`. -/
structure LeftmostLongest (longest : Nat → Option Nat) (last : Nat) (fs : List Found) : Prop where
  increasing : fs.Pairwise fun f g => f.offset < g.offset
  longest_eq : ∀ f ∈ fs, longest f.offset = some f.length
  finish_le : ∀ f ∈ fs, f.offset + f.length ≤ last
  apart : fs.Pairwise fun f g => f.offset + max f.length 1 ≤ g.offset
  complete : ∀ p ≤ last, (longest p).isSome →
    ∃ f ∈ fs, p = f.offset ∨ f.offset < p ∧ p < f.offset + f.length

variable {longest : Nat → Option Nat} {last pos : Nat} {f : Found}

theorem foundsFrom_of_some {length : Nat} (hpos : pos ≤ last) (h : longest pos = some length) :
    foundsFrom longest last pos =
      ⟨pos, length⟩ :: foundsFrom longest last (pos + max length 1) := by
  rw [foundsFrom, if_pos hpos, h]

theorem foundsFrom_of_none (hpos : pos ≤ last) (h : longest pos = none) :
    foundsFrom longest last pos = foundsFrom longest last (pos + 1) := by
  rw [foundsFrom, if_pos hpos, h]

theorem foundsFrom_of_lt (hpos : last < pos) : foundsFrom longest last pos = [] := by
  rw [foundsFrom, if_neg (Nat.not_le_of_lt hpos)]

theorem bounds_of_mem_foundsFrom (h : f ∈ foundsFrom longest last pos) :
    pos ≤ f.offset ∧ f.offset ≤ last ∧ longest f.offset = some f.length := by
  fun_induction foundsFrom longest last pos with
  | case1 pos hpos length hlength ih =>
    rcases List.mem_cons.mp h with rfl | h
    · exact ⟨Nat.le_refl _, hpos, hlength⟩
    · have := ih h
      exact ⟨by omega, this.2⟩
  | case2 pos hpos _ ih =>
    have := ih h
    exact ⟨by omega, this.2⟩
  | case3 => cases h

theorem pairwise_foundsFrom :
    (foundsFrom longest last pos).Pairwise fun f g => f.offset + max f.length 1 ≤ g.offset := by
  fun_induction foundsFrom longest last pos with
  | case1 pos _ length _ ih =>
    refine List.pairwise_cons.mpr ⟨fun g hg => ?_, ih⟩
    exact (bounds_of_mem_foundsFrom hg).1
  | case2 _ _ _ ih => exact ih
  | case3 => exact .nil

theorem exists_mem_foundsFrom {p : Nat} (hp : pos ≤ p) (hlast : p ≤ last)
    (h : (longest p).isSome) :
    ∃ f ∈ foundsFrom longest last pos, p = f.offset ∨ f.offset < p ∧ p < f.offset + f.length := by
  fun_induction foundsFrom longest last pos with
  | case1 pos _ length _ ih =>
    -- the offset is that of the first match, or inside it, or behind it
    by_cases heq : p = pos
    · exact ⟨_, List.mem_cons_self, .inl heq⟩
    · by_cases hlt : p < pos + length
      · exact ⟨_, List.mem_cons_self, .inr ⟨Nat.lt_of_le_of_ne hp (Ne.symm heq), hlt⟩⟩
      · obtain ⟨f, hf, hpf⟩ := ih (by omega)
        exact ⟨f, List.mem_cons_of_mem _ hf, hpf⟩
  | case2 pos _ hnone ih =>
    refine ih (Nat.lt_of_le_of_ne hp ?_)
    rintro rfl
    rw [hnone] at h
    cases h
  | case3 pos hpos => exact absurd (Nat.le_trans hp hlast) hpos

/-- **The matches of a scan from the start are the leftmost-longest ones**, if none reaches beyond
the end. -/
theorem leftmostLongest_foundsFrom
    (hfinish : ∀ p length, longest p = some length → p + length ≤ last) :
    LeftmostLongest longest last (foundsFrom longest last 0) where
  increasing := pairwise_foundsFrom.imp fun h => by omega
  longest_eq f hf := (bounds_of_mem_foundsFrom hf).2.2
  finish_le f hf := hfinish _ _ (bounds_of_mem_foundsFrom hf).2.2
  apart := pairwise_foundsFrom
  complete p hp h := exists_mem_foundsFrom (Nat.zero_le p) hp h

namespace LeftmostLongest

variable {fs : List Found}

/-- There is a first match if some offset has one. -/
theorem isSome_head?_iff (h : LeftmostLongest longest last fs) :
    fs.head?.isSome ↔ ∃ p ≤ last, (longest p).isSome := by
  constructor
  · intro hsome
    obtain ⟨f, hf⟩ := Option.isSome_iff_exists.mp hsome
    have hmem := List.mem_of_head? hf
    refine ⟨f.offset, Nat.le_of_add_right_le (h.finish_le f hmem), ?_⟩
    rw [h.longest_eq f hmem]
    rfl
  · rintro ⟨p, hp, hsome⟩
    obtain ⟨f, hf, -⟩ := h.complete p hp hsome
    cases fs with
    | nil => cases hf
    | cons g fs => rfl

/-- The first match is the one at the least offset that has any. -/
theorem isLeast_of_head? (h : LeftmostLongest longest last fs) (hf : fs.head? = some f) :
    IsLeast {p | p ≤ last ∧ (longest p).isSome} f.offset := by
  obtain ⟨rest, rfl⟩ := List.head?_eq_some_iff.mp hf
  constructor
  · refine ⟨Nat.le_of_add_right_le (h.finish_le f List.mem_cons_self), ?_⟩
    rw [h.longest_eq f List.mem_cons_self]
    rfl
  · rintro p ⟨hp, hsome⟩
    obtain ⟨g, hg, hgp⟩ := h.complete p hp hsome
    have hfg : f.offset ≤ g.offset := by
      rcases List.mem_cons.mp hg with rfl | hg
      · exact Nat.le_refl _
      · exact Nat.le_of_lt ((List.pairwise_cons.mp h.increasing).1 g hg)
    omega

end LeftmostLongest

end ByteRegex
