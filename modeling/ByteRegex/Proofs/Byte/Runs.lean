import ByteRegex.Byte.ByteSet
import Mathlib.Data.List.Pairwise
import Mathlib.Data.List.Sort
import Mathlib.Data.Set.Basic

/-!
# Runs of consecutive bytes

A run of a set of bytes goes from one member to another without a gap, and no byte next to it is a
member. Ranges that lie apart, with at least one byte between any two, and cover a set are its runs,
all of them and no others (`ListsRuns.mem_iff_isRun`). Any two ways to find such ranges in ascending
order therefore find the same ones (`ListsRuns.unique`).

The text of a set names each byte at the ends of its runs by two digits, so the runs can be read off
the text, and sets with the same text are equal (`ByteSet.text_injective`).
-/

namespace ByteRegex

/-! ## Lists of runs -/

/-- Members from one byte to another, and no member next to them. -/
structure IsRun (members : Set Byte) (r : Byte × Byte) : Prop where
  le : r.1 ≤ r.2
  subset : ∀ b, r.1 ≤ b → b ≤ r.2 → b ∈ members
  notMem_before : ∀ b, b.toNat + 1 = r.1.toNat → b ∉ members
  notMem_behind : ∀ b, b.toNat = r.2.toNat + 1 → b ∉ members

/-- Ranges in ascending order that lie apart and cover a set. -/
structure ListsRuns (members : Set Byte) (rs : List (Byte × Byte)) : Prop where
  le : ∀ r ∈ rs, r.1 ≤ r.2
  apart : rs.Pairwise fun r t => r.2.toNat + 1 < t.1.toNat
  mem_iff : ∀ b, b ∈ members ↔ ∃ r ∈ rs, r.1 ≤ b ∧ b ≤ r.2

variable {members : Set Byte} {rs ts : List (Byte × Byte)} {r t : Byte × Byte} {b : Byte} {n : Nat}

theorem toNat_byte (h : n < 256) : (UInt8.ofNat n).toNat = n := UInt8.toNat_ofNat_of_lt h

namespace IsRun

/-- A run that reaches another one does not begin before it. -/
theorem fst_le (hr : IsRun members r) (ht : IsRun members t) (h : r.1 ≤ t.2) : r.1 ≤ t.1 := by
  by_contra hlt
  rw [UInt8.le_iff_toNat_le] at h hlt
  have hbyte : (UInt8.ofNat (r.1.toNat - 1)).toNat = r.1.toNat - 1 :=
    toNat_byte (by have := r.1.toNat_lt; omega)
  refine hr.notMem_before (UInt8.ofNat (r.1.toNat - 1)) (by omega) (ht.subset _ ?_ ?_)
  · rw [UInt8.le_iff_toNat_le]
    omega
  · rw [UInt8.le_iff_toNat_le]
    omega

theorem snd_le (hr : IsRun members r) (ht : IsRun members t) (h : t.1 ≤ r.2) : t.2 ≤ r.2 := by
  by_contra hlt
  rw [UInt8.le_iff_toNat_le] at h hlt
  have hbyte : (UInt8.ofNat (r.2.toNat + 1)).toNat = r.2.toNat + 1 :=
    toNat_byte (by have := t.2.toNat_lt; omega)
  refine hr.notMem_behind (UInt8.ofNat (r.2.toNat + 1)) hbyte (ht.subset _ ?_ ?_)
  · rw [UInt8.le_iff_toNat_le]
    omega
  · rw [UInt8.le_iff_toNat_le]
    omega

/-- Runs with a byte in common are the same. -/
theorem eq_of_mem (hr : IsRun members r) (ht : IsRun members t) (hrb : r.1 ≤ b ∧ b ≤ r.2)
    (htb : t.1 ≤ b ∧ b ≤ t.2) : r = t := by
  have hrt : r.1 ≤ t.2 := UInt8.le_trans hrb.1 htb.2
  have htr : t.1 ≤ r.2 := UInt8.le_trans htb.1 hrb.2
  exact Prod.ext (UInt8.le_antisymm (hr.fst_le ht hrt) (ht.fst_le hr htr))
    (UInt8.le_antisymm (ht.snd_le hr hrt) (hr.snd_le ht htr))

end IsRun

namespace ListsRuns

/-- Two ranges of a list are the same, or one lies before the other. -/
theorem eq_or_apart (h : ListsRuns members rs) (hr : r ∈ rs) (ht : t ∈ rs) :
    r = t ∨ r.2.toNat + 1 < t.1.toNat ∨ t.2.toNat + 1 < r.1.toNat := by
  exact List.Pairwise.forall_of_forall_of_flip
    (R := fun r t => r = t ∨ r.2.toNat + 1 < t.1.toNat ∨ t.2.toNat + 1 < r.1.toNat)
    (fun _ _ => .inl rfl) (h.apart.imp fun hlt => .inr (.inl hlt))
    (h.apart.imp fun hlt => .inr (.inr hlt)) hr ht

/-- Each range is a run. -/
theorem isRun (h : ListsRuns members rs) (hr : r ∈ rs) : IsRun members r where
  le := h.le r hr
  subset b hle hge := (h.mem_iff b).mpr ⟨r, hr, hle, hge⟩
  notMem_before b hb hmem := by
    obtain ⟨t, ht, hle, hge⟩ := (h.mem_iff b).mp hmem
    have hrle := h.le r hr
    rw [UInt8.le_iff_toNat_le] at hle hge hrle
    rcases h.eq_or_apart hr ht with rfl | hlt | hlt <;> omega
  notMem_behind b hb hmem := by
    obtain ⟨t, ht, hle, hge⟩ := (h.mem_iff b).mp hmem
    have hrle := h.le r hr
    rw [UInt8.le_iff_toNat_le] at hle hge hrle
    rcases h.eq_or_apart hr ht with rfl | hlt | hlt <;> omega

/-- **Ranges that lie apart and cover a set are its runs**, all of them. -/
theorem mem_iff_isRun (h : ListsRuns members rs) : r ∈ rs ↔ IsRun members r := by
  refine ⟨h.isRun, fun hr => ?_⟩
  obtain ⟨t, ht, hmem⟩ := (h.mem_iff r.1).mp (hr.subset r.1 (UInt8.le_refl _) hr.le)
  rwa [hr.eq_of_mem (h.isRun ht) ⟨UInt8.le_refl _, hr.le⟩ hmem]

theorem ascending (h : ListsRuns members rs) : rs.Pairwise fun r t => r.1 < t.1 := by
  refine h.apart.imp_of_mem fun {r t} hr _ hlt => ?_
  have hle := h.le r hr
  rw [UInt8.le_iff_toNat_le] at hle
  rw [UInt8.lt_iff_toNat_lt]
  omega

/-- **A set has one list of runs.** -/
theorem unique (h : ListsRuns members rs) (h' : ListsRuns members ts) : rs = ts := by
  have : Std.Irrefl fun r t : Byte × Byte => r.1 < t.1 := ⟨fun r => UInt8.lt_irrefl r.1⟩
  have : Std.Antisymm fun r t : Byte × Byte => r.1 < t.1 :=
    ⟨fun r t hrt htr => absurd htr (UInt8.lt_asymm hrt)⟩
  exact h.ascending.eq_of_mem_iff h'.ascending fun r => h.mem_iff_isRun.trans h'.mem_iff_isRun.symm

/-! ## Finding the runs -/

theorem nil : ListsRuns ∅ [] where
  le := by simp
  apart := .nil
  mem_iff := by simp

/-- The first range begins a byte later than it could. -/
theorem extend (h : ListsRuns members (r :: rs)) (hb : r.1.toNat = b.toNat + 1) :
    ListsRuns (insert b members) ((b, r.2) :: rs) where
  le t ht := by
    have hle := h.le r List.mem_cons_self
    rcases List.mem_cons.mp ht with rfl | ht
    · simp only [UInt8.le_iff_toNat_le] at hle ⊢
      omega
    · exact h.le t (List.mem_cons_of_mem r ht)
  apart := List.pairwise_cons.mpr (List.pairwise_cons.mp h.apart)
  mem_iff c := by
    have hle := h.le r List.mem_cons_self
    rw [Set.mem_insert_iff, h.mem_iff, List.exists_mem_cons_iff, List.exists_mem_cons_iff,
      ← or_assoc]
    refine or_congr_left ?_
    simp only [UInt8.le_iff_toNat_le, ← UInt8.toNat_inj] at hle ⊢
    omega

/-- A range in front of the others that is not next to them. -/
theorem cons (h : ListsRuns members rs) (hr : r.1 ≤ r.2)
    (hapart : ∀ t ∈ rs, r.2.toNat + 1 < t.1.toNat) :
    ListsRuns ({b | r.1 ≤ b ∧ b ≤ r.2} ∪ members) (r :: rs) where
  le t ht := by
    rcases List.mem_cons.mp ht with rfl | ht
    · exact hr
    · exact h.le t ht
  apart := List.pairwise_cons.mpr ⟨hapart, h.apart⟩
  mem_iff c := by
    rw [Set.mem_union, h.mem_iff, List.exists_mem_cons_iff]
    exact Iff.rfl

/-- A byte that is not next to the first range is a range of its own. -/
theorem consByte (h : ListsRuns members rs) (hb : ∀ t ∈ rs, b.toNat + 1 < t.1.toNat) :
    ListsRuns (insert b members) ((b, b) :: rs) := by
  have hinsert : insert b members = {c | b ≤ c ∧ c ≤ b} ∪ members := by
    refine Set.ext fun c => or_congr_left ?_
    refine ⟨?_, fun hc => UInt8.le_antisymm hc.2 hc.1⟩
    rintro rfl
    exact ⟨UInt8.le_refl c, UInt8.le_refl c⟩
  rw [hinsert]
  exact h.cons (r := (b, b)) (UInt8.le_refl b) hb

/-- A byte in front of all members extends the first range, or is a range of its own. -/
theorem consRun (h : ListsRuns members rs) (hb : ∀ c ∈ members, b < c) :
    ListsRuns (insert b members) (ByteSet.consRun b rs) := by
  cases rs with
  | nil => exact h.consByte fun t ht => nomatch ht
  | cons r rs =>
    obtain ⟨lo, hi⟩ := r
    have hle : lo ≤ hi := h.le (lo, hi) List.mem_cons_self
    have hlo : lo ∈ members := (h.mem_iff lo).mpr ⟨_, List.mem_cons_self, UInt8.le_refl lo, hle⟩
    have hblo := hb lo hlo
    rw [UInt8.le_iff_toNat_le] at hle
    rw [UInt8.lt_iff_toNat_lt] at hblo
    by_cases hnext : lo.toNat = b.toNat + 1
    · rw [ByteSet.consRun, if_pos hnext]
      exact h.extend hnext
    · rw [ByteSet.consRun, if_neg hnext]
      refine h.consByte fun t ht => ?_
      rcases List.mem_cons.mp ht with rfl | ht
      · change b.toNat + 1 < lo.toNat
        omega
      · have hapart : hi.toNat + 1 < t.1.toNat := (List.pairwise_cons.mp h.apart).1 t ht
        omega

theorem foldr_consRun {bs : List Byte} (h : bs.Pairwise (· < ·)) :
    ListsRuns {b | b ∈ bs} (bs.foldr ByteSet.consRun []) := by
  induction bs with
  | nil =>
    have hempty : {b : Byte | b ∈ []} = ∅ := Set.eq_empty_of_forall_notMem fun _ => List.not_mem_nil
    rw [hempty]
    exact .nil
  | cons b bs ih =>
    obtain ⟨hb, hbs⟩ := List.pairwise_cons.mp h
    have hinsert : {c | c ∈ b :: bs} = insert b {c | c ∈ bs} := Set.ext fun c => List.mem_cons
    rw [hinsert]
    exact (ih hbs).consRun hb

end ListsRuns

namespace ByteSet

theorem pairwise_toList (s : ByteSet) : s.toList.Pairwise (· < ·) := by
  refine (List.pairwise_map.mpr ?_).filter _
  refine List.pairwise_lt_range.imp_of_mem fun {m n} hm hn hlt => ?_
  rw [UInt8.lt_iff_toNat_lt, toNat_byte (List.mem_range.mp hm), toNat_byte (List.mem_range.mp hn)]
  exact hlt

/-- **The runs that are put together from the members are all runs of a set.** -/
theorem listsRuns (s : ByteSet) : ListsRuns {b | s.contains b = true} s.runs := by
  have hset : {b | s.contains b = true} = {b | b ∈ s.toList} :=
    Set.ext fun b => (mem_toList s b).symm
  rw [hset]
  exact ListsRuns.foldr_consRun s.pairwise_toList

end ByteSet

/-! ## Texts -/

theorem digitChar_inj {m n : Nat} (hm : m < 16) (hn : n < 16) (h : m.digitChar = n.digitChar) :
    m = n := by
  have hall : ∀ m < 16, ∀ n < 16, m.digitChar = n.digitChar → m = n := by decide
  exact hall m hm n hn h

theorem digitChar_ne_space (hn : n < 16) : n.digitChar ≠ ' ' := by
  have hall : ∀ n < 16, n.digitChar ≠ ' ' := by decide
  exact hall n hn

/-- **A byte in hexadecimal has two digits.** -/
theorem Byte.toList_hex (b : Byte) :
    b.hex.toList = ['0', 'x', (b.toNat / 16).digitChar, (b.toNat % 16).digitChar] := by
  have hb : b.toNat < 256 := b.toNat_lt
  rw [hex, hexDigits, String.toList_append, String.toList_ofList]
  by_cases h : b.toNat < 16
  · have hlt : b < 0x10 := UInt8.lt_iff_toNat_lt.mpr h
    rw [if_pos hlt, Nat.toDigits_of_lt_base h, Nat.div_eq_of_lt h, Nat.mod_eq_of_lt h]
    rfl
  · have hlt : ¬ b < 0x10 := mt UInt8.lt_iff_toNat_lt.mp h
    have hdiv : b.toNat / 16 < 16 := by omega
    rw [if_neg hlt, Nat.toDigits_of_base_le (by decide) (Nat.le_of_not_lt h),
      Nat.toDigits_of_lt_base hdiv]
    rfl

theorem Byte.hex_injective : Function.Injective Byte.hex := by
  intro b c h
  have hb : b.toNat < 256 := b.toNat_lt
  have hc : c.toNat < 256 := c.toNat_lt
  have hchars := congrArg String.toList h
  simp only [toList_hex, List.cons.injEq, and_true, true_and] at hchars
  have hdiv := digitChar_inj (by omega) (by omega) hchars.1
  have hmod := digitChar_inj (by omega) (by omega) hchars.2
  exact UInt8.toNat_inj.mp (by omega)

theorem Byte.space_notMem_hex (b : Byte) : ' ' ∉ b.hex.toList := by
  have hdiv : b.toNat / 16 < 16 := by
    have hb : b.toNat < 256 := b.toNat_lt
    omega
  have hmod : b.toNat % 16 < 16 := Nat.mod_lt _ (by decide)
  rw [toList_hex]
  simp [(digitChar_ne_space hdiv).symm, (digitChar_ne_space hmod).symm]

namespace ByteSet

theorem toList_runText (r : Byte × Byte) :
    (runText r).toList =
      if r.1 = r.2 then r.1.hex.toList else r.1.hex.toList ++ '-' :: r.2.hex.toList := by
  rw [runText]
  split
  · rfl
  · simp

theorem length_toList_runText (r : Byte × Byte) :
    (runText r).toList.length = if r.1 = r.2 then 4 else 9 := by
  rw [toList_runText]
  split <;> simp [Byte.toList_hex]

theorem space_notMem_runText (r : Byte × Byte) : ' ' ∉ (runText r).toList := by
  rw [toList_runText]
  split
  · exact r.1.space_notMem_hex
  · simp [Byte.space_notMem_hex]

theorem runText_injective : Function.Injective runText := by
  intro r t h
  have hlength := length_toList_runText t
  rw [← h, length_toList_runText r] at hlength
  have hchars := congrArg String.toList h
  rw [toList_runText, toList_runText] at hchars
  by_cases hr : r.1 = r.2
  · by_cases ht : t.1 = t.2
    · rw [if_pos hr, if_pos ht] at hchars
      have hfst := Byte.hex_injective (String.toList_inj.mp hchars)
      exact Prod.ext hfst (hr.symm.trans (hfst.trans ht))
    · simp [hr, ht] at hlength
  · by_cases ht : t.1 = t.2
    · simp [hr, ht] at hlength
    · rw [if_neg hr, if_neg ht] at hchars
      obtain ⟨hfst, hsnd⟩ := List.append_inj hchars (by simp [Byte.toList_hex])
      exact Prod.ext (Byte.hex_injective (String.toList_inj.mp hfst))
        (Byte.hex_injective (String.toList_inj.mp (List.cons.inj hsnd).2))

/-- What blanks separate in the text of some runs. -/
theorem splitOn_intercalate_runText (rs : List (Byte × Byte)) :
    (" ".intercalate (rs.map runText)).toList.splitOn ' ' =
      if rs = [] then [[]] else (rs.map runText).map String.toList := by
  rw [String.toList_intercalate]
  split
  · next h =>
    rw [h]
    rfl
  · next h =>
    refine List.splitOn_intercalate ' ' (fun l hl => ?_) (by simpa using h)
    simp only [List.map_map, List.mem_map] at hl
    obtain ⟨r, -, rfl⟩ := hl
    exact space_notMem_runText r

/-- **Runs can be read off their text.** -/
theorem intercalate_runText_inj
    (h : " ".intercalate (rs.map runText) = " ".intercalate (ts.map runText)) : rs = ts := by
  have hne : ∀ us : List (Byte × Byte), (us.map runText).map String.toList ≠ [[]] := by
    intro us hus
    obtain ⟨r, us, rfl⟩ := List.exists_cons_of_ne_nil (l := us) (by rintro rfl; cases hus)
    have hlength := length_toList_runText r
    rw [(List.cons.inj hus).1] at hlength
    split at hlength <;> cases hlength
  have hsplit := congrArg (fun u => u.toList.splitOn ' ') h
  simp only [splitOn_intercalate_runText] at hsplit
  by_cases hr : rs = []
  · by_cases ht : ts = []
    · rw [hr, ht]
    · rw [if_pos hr, if_neg ht] at hsplit
      exact absurd hsplit.symm (hne ts)
  · by_cases ht : ts = []
    · rw [if_neg hr, if_pos ht] at hsplit
      exact absurd hsplit (hne rs)
    · rw [if_neg hr, if_neg ht] at hsplit
      have htoList : Function.Injective String.toList := fun _ _ => String.toList_inj.mp
      exact runText_injective.list_map (htoList.list_map hsplit)

/-- **Sets with the same text are equal.** -/
theorem text_injective : Function.Injective text := by
  intro s t h
  have hchars := congrArg String.toList h
  simp only [text, String.toList_append, List.append_cancel_left_eq,
    List.append_cancel_right_eq] at hchars
  have hruns : s.runs = t.runs := intercalate_runText_inj (String.toList_inj.mp hchars)
  refine ext fun b => Bool.eq_iff_iff.mpr ?_
  exact (s.listsRuns.mem_iff b).trans (hruns ▸ (t.listsRuns.mem_iff b).symm)

end ByteSet

end ByteRegex
