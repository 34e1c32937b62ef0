import ByteRegex.Byte.Quoted

/-!
# Sets of bytes

A set of bytes is one bit for each of the 256 bytes. Every operation is described by what it
does to membership: `contains_insert`, `contains_union`, `contains_compl` and so on; two sets
with the same members are equal (`ext`).

The text of a set lists its maximal runs of consecutive members, `0x61-0x63` for a run and
`0xff` for a single byte.
-/

namespace ByteRegex

/-- A set of bytes. -/
structure ByteSet where
  /-- Bit `n` is set when byte `n` is a member. -/
  bits : BitVec 256
deriving DecidableEq

namespace ByteSet

/-! ## Membership -/

/-- Whether a byte is a member. -/
def contains (s : ByteSet) (b : Byte) : Bool := s.bits.getLsbD b.toNat

/-- The set without members. -/
def empty : ByteSet := ⟨0#256⟩

instance : Inhabited ByteSet := ⟨empty⟩

/-- Add one byte. -/
def insert (s : ByteSet) (b : Byte) : ByteSet := ⟨s.bits ||| BitVec.twoPow 256 b.toNat⟩

/-- The members of either set. -/
def union (s t : ByteSet) : ByteSet := ⟨s.bits ||| t.bits⟩

/-- The bytes that are not members. -/
def compl (s : ByteSet) : ByteSet := ⟨~~~s.bits⟩

/-- Whether there are no members. -/
def isEmpty (s : ByteSet) : Bool := s.bits == 0#256

@[simp] theorem contains_empty (b : Byte) : empty.contains b = false := by
  simp [empty, contains]

@[simp] theorem contains_insert (s : ByteSet) (b c : Byte) :
    (s.insert b).contains c = (s.contains c || b == c) := by
  have hb : b.toNat < 256 := b.toNat_lt
  by_cases h : b = c
  · simp [insert, contains, h, c.toNat_lt]
  · have : b.toNat ≠ c.toNat := fun e => h (UInt8.toNat_inj.mp e)
    simp [insert, contains, this, h]

@[simp] theorem contains_union (s t : ByteSet) (b : Byte) :
    (s.union t).contains b = (s.contains b || t.contains b) := by
  simp [union, contains]

@[simp] theorem contains_compl (s : ByteSet) (b : Byte) :
    s.compl.contains b = !s.contains b := by
  have hb : b.toNat < 256 := b.toNat_lt
  simp [compl, contains, hb]

/-- Sets with the same members are equal. -/
theorem ext {s t : ByteSet} (h : ∀ b, s.contains b = t.contains b) : s = t := by
  have hbits : s.bits = t.bits := by
    apply BitVec.eq_of_getLsbD_eq
    intro i hi
    have := h (UInt8.ofNat i)
    simpa [contains, Nat.mod_eq_of_lt hi] using this
  cases s; cases t; simp_all

/-! ## Construction -/

/-- The set of the bytes of a list. -/
def ofList (bs : List Byte) : ByteSet := bs.foldl insert empty

/-- Add every byte from `lo` up to and including `hi`; nothing if `hi` is below `lo`. -/
def insertRange (s : ByteSet) (lo hi : Byte) : ByteSet :=
  (List.range' lo.toNat (hi.toNat + 1 - lo.toNat)).foldl (fun s n => s.insert (UInt8.ofNat n)) s

/-- The set of the bytes in a list of inclusive ranges. -/
def ofRanges (rs : List (Byte × Byte)) : ByteSet :=
  rs.foldl (fun s r => s.insertRange r.1 r.2) empty

theorem contains_foldl_insert (ns : List Nat) (s : ByteSet) (c : Byte) :
    (ns.foldl (fun s n => s.insert (UInt8.ofNat n)) s).contains c
      = (s.contains c || ns.any (fun n => UInt8.ofNat n == c)) := by
  induction ns generalizing s with
  | nil => simp
  | cons n ns ih => simp [ih, Bool.or_assoc]

@[simp] theorem contains_insertRange (s : ByteSet) (lo hi c : Byte) :
    (s.insertRange lo hi).contains c = (s.contains c || (lo ≤ c && c ≤ hi)) := by
  rw [insertRange, contains_foldl_insert]
  congr 1
  rw [Bool.eq_iff_iff]
  have hhi : hi.toNat < 256 := hi.toNat_lt
  simp only [List.any_eq_true, List.mem_range'_1, beq_iff_eq, Bool.and_eq_true, decide_eq_true_eq,
    UInt8.le_iff_toNat_le]
  constructor
  · rintro ⟨n, hn, rfl⟩
    have : (UInt8.ofNat n).toNat = n := by
      rw [UInt8.toNat_ofNat']; exact Nat.mod_eq_of_lt (by omega)
    omega
  · intro h
    exact ⟨c.toNat, by omega, UInt8.ofNat_toNat⟩

/-! ## Members in order -/

/-- The members in ascending order. -/
def toList (s : ByteSet) : List Byte := ((List.range 256).map UInt8.ofNat).filter s.contains

/-- The number of members. -/
def count (s : ByteSet) : Nat := s.toList.length

@[simp] theorem mem_toList (s : ByteSet) (b : Byte) : b ∈ s.toList ↔ s.contains b = true := by
  simp only [toList, List.mem_filter, List.mem_map, List.mem_range, and_iff_right_iff_imp]
  exact fun _ => ⟨b.toNat, b.toNat_lt, UInt8.ofNat_toNat⟩

/-! ## Runs and text -/

/-- Put a byte in front of runs that all lie above it: it extends the first run if it is next
to it, and is a run of its own otherwise. -/
def consRun (b : Byte) : List (Byte × Byte) → List (Byte × Byte)
  | [] => [(b, b)]
  | (lo, hi) :: rest =>
    if lo.toNat = b.toNat + 1 then (b, hi) :: rest else (b, b) :: (lo, hi) :: rest

/-- The maximal runs of consecutive members, in ascending order, as inclusive ranges. -/
def runs (s : ByteSet) : List (Byte × Byte) := s.toList.foldr consRun []

/-- A single byte by itself, a longer run by its two ends. -/
def runText (r : Byte × Byte) : String :=
  if r.1 = r.2 then r.1.hex else r.1.hex ++ "-" ++ r.2.hex

/-- The text of a set: its runs, separated by one blank. -/
def text (s : ByteSet) : String := "ByteBitmap[" ++ " ".intercalate (s.runs.map runText) ++ "]"

end ByteSet

end ByteRegex
