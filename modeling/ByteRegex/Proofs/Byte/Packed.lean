import ByteRegex.Proofs.Byte.Runs
import Mathlib.Data.Set.Card

/-!
# Sets of bytes packed into words

A set of bytes takes sixteen words of sixteen bits: the upper half of a byte is the place of its
word, and the lower half the place of its bit. Each operation on the words is the same operation on
the set (`PackedBytes.toSet`), and so is each question that is asked of them.

The text is written in one walk over the numbers from 0 on. From each number the walk goes to the
first one that is no member, writes what it passed over as a run, and goes on behind it
(`PackedBytes.listing`). These runs lie apart, because the number between them is no member, so they
are the runs of the set (`PackedBytes.exists_listing_eq`).

Main statement: `Origin.answers_areOf`.
-/

namespace ByteRegex

@[simp] theorem ByteSet.contains_ofList (bs : List Byte) (b : Byte) :
    (ByteSet.ofList bs).contains b = bs.contains b := by
  have hfold : ∀ s : ByteSet,
      (bs.foldl insert s).contains b = (s.contains b || bs.contains b) := by
    induction bs with
    | nil => simp
    | cons c bs ih =>
      intro s
      rw [List.foldl_cons, ih, contains_insert, List.contains_cons, Bool.or_assoc, Bool.beq_comm]
  rw [ofList, hfold, contains_empty, Bool.false_or]

theorem ByteSet.isEmpty_iff {s : ByteSet} : s.isEmpty = true ↔ s = .empty := by
  constructor
  · intro h
    exact congrArg ByteSet.mk (eq_of_beq h)
  · rintro rfl
    rfl

/-- A set of bytes, packed into sixteen words of sixteen bits. -/
structure PackedBytes where
  words : Vector (BitVec 16) 16
deriving DecidableEq

namespace PackedBytes

/-! ## Operations -/

theorem toNat_shiftRight_four (b : Byte) : (b >>> 4).toNat = b.toNat / 16 := by
  rw [UInt8.toNat_shiftRight]
  exact Nat.shiftRight_eq_div_pow b.toNat 4

theorem toNat_shiftRight_four_lt (b : Byte) : (b >>> 4).toNat < 16 := by
  have hb : b.toNat < 256 := b.toNat_lt
  rw [toNat_shiftRight_four]
  omega

/-- The place of the word of a byte. -/
def place (b : Byte) : Fin 16 := ⟨(b >>> 4).toNat, toNat_shiftRight_four_lt b⟩

/-- The word with the bit of a byte. -/
def mask (b : Byte) : BitVec 16 := 1#16 <<< (b &&& 0xF).toNat

/-- The set without members. -/
def empty : PackedBytes := ⟨Vector.replicate 16 0#16⟩

/-- Whether a byte is a member. -/
def contains (p : PackedBytes) (b : Byte) : Bool := p.words[place b] &&& mask b != 0#16

/-- Add one byte. -/
def insert (p : PackedBytes) (b : Byte) : PackedBytes :=
  ⟨p.words.set (place b) (p.words[place b] ||| mask b)⟩

/-- The set of the bytes of a list. -/
def ofList (bs : List Byte) : PackedBytes := bs.foldl insert empty

/-- Add every byte from `lo` up to and including `hi`; nothing if `hi` is below `lo`. -/
def insertRange (p : PackedBytes) (lo hi : Byte) : PackedBytes :=
  (List.range' lo.toNat (hi.toNat + 1 - lo.toNat)).foldl (fun p n => p.insert (UInt8.ofNat n)) p

/-- The members of either set. -/
def union (p q : PackedBytes) : PackedBytes := ⟨p.words.zipWith (· ||| ·) q.words⟩

/-- The bytes that are not members. -/
def compl (p : PackedBytes) : PackedBytes := ⟨p.words.map (~~~ ·)⟩

/-- Whether there are no members. -/
def isEmpty (p : PackedBytes) : Bool := p.words.all (· == 0#16)

/-- The number of bits of a word that are set. -/
def ones (w : BitVec 16) : Nat := (List.range 16).countP w.getLsbD

/-- The number of members. -/
def count (p : PackedBytes) : Nat := (p.words.toList.map ones).sum

/-- The members in ascending order. -/
def toList (p : PackedBytes) : List Byte :=
  ((List.range 256).map UInt8.ofNat).filter p.contains

/-! ## Membership -/

variable {p q : PackedBytes} {b c lo hi : Byte} {bs : List Byte} {i n : Nat}

theorem mask_eq (b : Byte) : mask b = BitVec.twoPow 16 (b.toNat % 16) := by
  have hbit : (b &&& 0xF).toNat = b.toNat % 16 := by
    rw [UInt8.toNat_and]
    exact Nat.and_two_pow_sub_one_eq_mod b.toNat 4
  rw [mask, hbit]
  rfl

/-- A byte is a member exactly if its bit is set. -/
theorem contains_eq (p : PackedBytes) (b : Byte) :
    p.contains b = p.words[place b].getLsbD (b.toNat % 16) := by
  have hbit : b.toNat % 16 < 16 := Nat.mod_lt _ (by decide)
  rw [contains, mask_eq, BitVec.and_twoPow]
  cases p.words[place b].getLsbD (b.toNat % 16)
  · rfl
  · rw [if_pos rfl, bne_iff_ne]
    intro hzero
    have hget := congrArg (·.getLsbD (b.toNat % 16)) hzero
    simp [hbit] at hget

theorem val_place (b : Byte) : (place b : Nat) = b.toNat / 16 := toNat_shiftRight_four b

/-- Bytes are equal exactly if their words and their bits are. -/
theorem eq_iff_place : b = c ↔ (place b : Nat) = place c ∧ b.toNat % 16 = c.toNat % 16 := by
  rw [val_place, val_place, ← UInt8.toNat_inj]
  omega

@[simp] theorem contains_empty (b : Byte) : empty.contains b = false := by
  rw [contains_eq, empty]
  simp

@[simp] theorem contains_insert (p : PackedBytes) (b c : Byte) :
    (p.insert b).contains c = (p.contains c || b == c) := by
  have hbit : c.toNat % 16 < 16 := Nat.mod_lt _ (by decide)
  rw [contains_eq, contains_eq, Bool.eq_iff_iff, Bool.or_eq_true, beq_iff_eq, eq_iff_place]
  simp only [insert, Fin.getElem_fin, Vector.getElem_set, mask_eq]
  split
  · next hplace => simp [hplace, hbit, @eq_comm Nat (c.toNat % 16)]
  · next hplace => simp [hplace]

@[simp] theorem contains_union (p q : PackedBytes) (b : Byte) :
    (p.union q).contains b = (p.contains b || q.contains b) := by
  simp [contains_eq, union]

@[simp] theorem contains_compl (p : PackedBytes) (b : Byte) :
    p.compl.contains b = !p.contains b := by
  have hbit : b.toNat % 16 < 16 := Nat.mod_lt _ (by decide)
  simp [contains_eq, compl, hbit]

/-! ## The same set, bit for bit -/

/-- The set with the members of the words. -/
def toSet (p : PackedBytes) : ByteSet := .ofList p.toList

@[simp] theorem mem_toList (p : PackedBytes) (b : Byte) : b ∈ p.toList ↔ p.contains b = true := by
  simp only [toList, List.mem_filter, List.mem_map, List.mem_range, and_iff_right_iff_imp]
  exact fun _ => ⟨b.toNat, b.toNat_lt, UInt8.ofNat_toNat⟩

@[simp] theorem contains_toSet (p : PackedBytes) (b : Byte) :
    p.toSet.contains b = p.contains b := by
  rw [toSet, ByteSet.contains_ofList, Bool.eq_iff_iff, List.contains_iff_mem, mem_toList]

theorem toSet_empty : empty.toSet = .empty := ByteSet.ext fun b => by simp

theorem toSet_insert (p : PackedBytes) (b : Byte) : (p.insert b).toSet = p.toSet.insert b :=
  ByteSet.ext fun c => by simp

theorem toSet_union (p q : PackedBytes) : (p.union q).toSet = p.toSet.union q.toSet :=
  ByteSet.ext fun b => by simp

theorem toSet_compl (p : PackedBytes) : p.compl.toSet = p.toSet.compl :=
  ByteSet.ext fun b => by simp

theorem toSet_ofList (bs : List Byte) : (ofList bs).toSet = .ofList bs := by
  rw [ofList, ByteSet.ofList, ← toSet_empty]
  exact (List.foldl_hom toSet fun p b => (toSet_insert p b).symm).symm

theorem toSet_insertRange (p : PackedBytes) (lo hi : Byte) :
    (p.insertRange lo hi).toSet = p.toSet.insertRange lo hi :=
  (List.foldl_hom toSet fun p n => (toSet_insert p (UInt8.ofNat n)).symm).symm

/-- The byte whose bit is at place `n` of word `i`. -/
theorem byte_eq (hi : i < 16) (hn : n < 16) :
    place (UInt8.ofNat (16 * i + n)) = i ∧ (UInt8.ofNat (16 * i + n)).toNat % 16 = n := by
  rw [val_place, toNat_byte (by omega)]
  omega

theorem contains_byte (p : PackedBytes) (hi : i < 16) (hn : n < 16) :
    p.contains (UInt8.ofNat (16 * i + n)) = p.words[i].getLsbD n := by
  obtain ⟨hplace, hbit⟩ := byte_eq hi hn
  rw [contains_eq, hbit]
  simp only [Fin.getElem_fin, hplace]

/-- Words with the same members are equal. -/
theorem ext (h : ∀ b, p.contains b = q.contains b) : p = q := by
  have hwords : p.words = q.words := by
    refine Vector.ext fun i hi => BitVec.eq_of_getLsbD_eq fun n hn => ?_
    rw [← contains_byte p hi hn, ← contains_byte q hi hn, h]
  cases p
  cases q
  exact congrArg mk hwords

theorem toSet_injective : Function.Injective toSet := by
  intro p q h
  refine ext fun b => ?_
  rw [← contains_toSet, ← contains_toSet, h]

/-! ## Questions -/

theorem toList_toSet (p : PackedBytes) : p.toSet.toList = p.toList := by
  rw [ByteSet.toList, toList, funext p.contains_toSet]

theorem isEmpty_iff : p.isEmpty = true ↔ p = empty := by
  rw [isEmpty, Vector.all_eq_true]
  constructor
  · intro hall
    refine congrArg mk (Vector.ext fun i hi => ?_)
    rw [eq_of_beq (hall i hi), Vector.getElem_replicate]
  · rintro rfl i hi
    rw [empty, Vector.getElem_replicate]
    rfl

theorem isEmpty_toSet (p : PackedBytes) : p.toSet.isEmpty = p.isEmpty := by
  rw [Bool.eq_iff_iff, ByteSet.isEmpty_iff, isEmpty_iff, ← toSet_empty]
  exact toSet_injective.eq_iff

/-- The numbers of the bytes, word by word. -/
theorem range_eq_flatMap :
    List.range 256 = (List.range 16).flatMap fun i => (List.range 16).map (16 * i + ·) := by
  decide +kernel

theorem ones_eq (p : PackedBytes) (hi : i < 16) :
    ones p.words[i] = ((List.range 16).map (16 * i + ·)).countP (p.contains ∘ UInt8.ofNat) := by
  rw [ones, List.countP_map]
  refine List.countP_congr fun n hn => ?_
  rw [Function.comp_apply, Function.comp_apply, contains_byte p hi (List.mem_range.mp hn)]

theorem map_ones_words (p : PackedBytes) :
    p.words.toList.map ones = (List.range 16).map
      fun i => ((List.range 16).map (16 * i + ·)).countP (p.contains ∘ UInt8.ofNat) := by
  refine List.ext_getElem (by simp) fun i hi _ => ?_
  have hlt : i < 16 := by simpa using hi
  rw [List.getElem_map, List.getElem_map, List.getElem_range, Vector.getElem_toList,
    ones_eq p hlt]

/-- **The bits that are set in the words are as many as the members.** -/
theorem count_toSet (p : PackedBytes) : p.toSet.count = p.count := by
  rw [ByteSet.count, toList_toSet, toList, ← List.countP_eq_length_filter, List.countP_map,
    range_eq_flatMap, List.countP_flatMap, count, map_ones_words]
  rfl

/-! ## The text -/

/-- The first number from `i` on that is no member; 256 is never one. -/
def runEnd (p : PackedBytes) (i : Nat) : Nat :=
  if i ≤ 255 ∧ p.contains (UInt8.ofNat i) = true then p.runEnd (i + 1) else i
termination_by 256 - i

theorem le_runEnd (p : PackedBytes) (i : Nat) : i ≤ p.runEnd i := by
  fun_induction runEnd with
  | case1 i _ ih => omega
  | case2 i _ => exact Nat.le_refl i

/-- What is written from `i` on, when `gap` stands between it and what was written before. -/
def listing (p : PackedBytes) (i : Nat) (gap : String) : String :=
  if i ≤ 256 then
    let stop := p.runEnd i
    if stop = i + 1 then
      gap ++ Byte.hex (UInt8.ofNat i) ++ p.listing (stop + 1) " "
    else if i + 1 < stop then
      gap ++ Byte.hex (UInt8.ofNat i) ++ "-" ++ Byte.hex (UInt8.ofNat (stop - 1)) ++
        p.listing (stop + 1) " "
    else
      p.listing (stop + 1) gap
  else
    ""
termination_by 257 - i
decreasing_by all_goals have := p.le_runEnd i; omega

/-- The text of a set: its runs, separated by one blank. -/
def text (p : PackedBytes) : String := "ByteBitmap[" ++ p.listing 0 "" ++ "]"

theorem runEnd_le (h : i ≤ 256) : p.runEnd i ≤ 256 := by
  fun_induction runEnd with
  | case1 i hmem ih => exact ih (by omega)
  | case2 i _ => exact h

/-- Everything in front of the end of a run is a member. -/
theorem contains_of_lt_runEnd (hi : i ≤ b.toNat) (hb : b.toNat < p.runEnd i) :
    p.contains b = true := by
  fun_induction runEnd with
  | case1 i hmem ih =>
    by_cases heq : i = b.toNat
    · rw [← UInt8.ofNat_toNat (x := b), ← heq]
      exact hmem.2
    · exact ih (by omega) hb
  | case2 i _ => omega

/-- The end of a run is no member. -/
theorem contains_runEnd (hb : b.toNat = p.runEnd i) : p.contains b = false := by
  fun_induction runEnd with
  | case1 i hmem ih => exact ih hb
  | case2 i hstop =>
    have hle := b.toNat_lt
    rw [← UInt8.ofNat_toNat (x := b), hb]
    exact Bool.eq_false_of_not_eq_true fun hmem => hstop ⟨by omega, hmem⟩

/-- The members from `i` on. -/
def membersFrom (p : PackedBytes) (i : Nat) : Set Byte := {b | i ≤ b.toNat ∧ p.contains b = true}

/-- The members from `i` on are the run at `i`, if there is one, and those behind its end. -/
theorem membersFrom_eq (p : PackedBytes) (i : Nat) :
    p.membersFrom i =
      {b | i ≤ b.toNat ∧ b.toNat < p.runEnd i} ∪ p.membersFrom (p.runEnd i + 1) := by
  refine Set.ext fun b => ?_
  rw [Set.mem_union]
  constructor
  · rintro ⟨hi, hmem⟩
    by_cases hlt : b.toNat < p.runEnd i
    · exact .inl ⟨hi, hlt⟩
    · have hne : b.toNat ≠ p.runEnd i := fun heq => by
        rw [contains_runEnd heq] at hmem
        cases hmem
      exact .inr ⟨by omega, hmem⟩
  · rintro (⟨hi, hlt⟩ | ⟨hi, hmem⟩)
    · exact ⟨hi, contains_of_lt_runEnd hi hlt⟩
    · have hle := p.le_runEnd i
      exact ⟨by omega, hmem⟩

theorem membersFrom_of_lt (h : 256 < i) : p.membersFrom i = ∅ := by
  refine Set.eq_empty_of_forall_notMem fun b hb => ?_
  have hlt := b.toNat_lt
  have hle : i ≤ b.toNat := hb.1
  omega

/-- The run at `i` stands in front of the runs behind its end. -/
theorem listsRuns_cons {rs : List (Byte × Byte)}
    (h : ListsRuns (p.membersFrom (p.runEnd i + 1)) rs) (hi : i ≤ 256) (hlt : i < p.runEnd i) :
    ListsRuns (p.membersFrom i) ((UInt8.ofNat i, UInt8.ofNat (p.runEnd i - 1)) :: rs) := by
  have hend : p.runEnd i ≤ 256 := runEnd_le hi
  have hfirst : (UInt8.ofNat i).toNat = i := toNat_byte (by omega)
  have hlast : (UInt8.ofNat (p.runEnd i - 1)).toNat = p.runEnd i - 1 := toNat_byte (by omega)
  have hrun : {b : Byte | i ≤ b.toNat ∧ b.toNat < p.runEnd i} =
      {b | UInt8.ofNat i ≤ b ∧ b ≤ UInt8.ofNat (p.runEnd i - 1)} := by
    refine Set.ext fun b => ?_
    rw [Set.mem_ofPred_eq, Set.mem_ofPred_eq, UInt8.le_iff_toNat_le, UInt8.le_iff_toNat_le, hfirst,
      hlast]
    omega
  rw [membersFrom_eq, hrun]
  have hle : UInt8.ofNat i ≤ UInt8.ofNat (p.runEnd i - 1) := by
    rw [UInt8.le_iff_toNat_le, hfirst, hlast]
    omega
  refine h.cons (r := (UInt8.ofNat i, UInt8.ofNat (p.runEnd i - 1))) hle fun t ht => ?_
  have hmem : t.1 ∈ p.membersFrom (p.runEnd i + 1) :=
    (h.mem_iff t.1).mpr ⟨t, ht, UInt8.le_refl _, h.le t ht⟩
  have hbehind : p.runEnd i + 1 ≤ t.1.toNat := hmem.1
  rw [hlast]
  omega

/-- The texts of some runs, separated by one blank, and with `gap` in front of them. -/
def runsText (gap : String) : List (Byte × Byte) → String
  | [] => ""
  | r :: rs => gap ++ ByteSet.runText r ++ runsText " " rs

theorem runsText_cons (gap : String) (r : Byte × Byte) (rs : List (Byte × Byte)) :
    runsText gap (r :: rs) = gap ++ " ".intercalate ((r :: rs).map ByteSet.runText) := by
  induction rs generalizing gap r with
  | nil => simp [runsText]
  | cons t rs ih =>
    rw [runsText, ih]
    simp only [List.map_cons, String.intercalate_cons_cons, String.append_assoc]

theorem runsText_empty (rs : List (Byte × Byte)) :
    runsText "" rs = " ".intercalate (rs.map ByteSet.runText) := by
  cases rs with
  | nil => rfl
  | cons r rs => rw [runsText_cons, String.empty_append]

/-- **What is written from `i` on are the runs of the members from `i` on.** -/
theorem exists_listing_eq (p : PackedBytes) (i : Nat) (gap : String) :
    ∃ rs, ListsRuns (p.membersFrom i) rs ∧ p.listing i gap = runsText gap rs := by
  -- The walk goes on behind the end of a run. That number is no member, or is 256, so no member is
  -- left out, and the next run does not touch the one before.
  fun_induction listing with
  | case1 i gap hi stop hone ih =>
    obtain ⟨rs, hrs, htext⟩ := ih
    refine ⟨_, listsRuns_cons hrs hi (by omega), ?_⟩
    have hlast : p.runEnd i - 1 = i := by omega
    rw [htext, runsText, ByteSet.runText, if_pos (by rw [hlast])]
  | case2 i gap hi stop hone hmore ih =>
    obtain ⟨rs, hrs, htext⟩ := ih
    refine ⟨_, listsRuns_cons hrs hi (by omega), ?_⟩
    have hne : UInt8.ofNat i ≠ UInt8.ofNat (p.runEnd i - 1) := fun heq => by
      have hend : p.runEnd i ≤ 256 := runEnd_le hi
      have hnat := congrArg UInt8.toNat heq
      rw [toNat_byte (by omega), toNat_byte (by omega)] at hnat
      omega
    rw [htext, runsText, ByteSet.runText, if_neg hne]
    simp only [String.append_assoc, stop]
  | case3 i gap hi stop hone hmore ih =>
    obtain ⟨rs, hrs, htext⟩ := ih
    have hstop : p.runEnd i = i := by
      have hle := p.le_runEnd i
      omega
    have hnone : {b : Byte | i ≤ b.toNat ∧ b.toNat < p.runEnd i} = ∅ := by
      refine Set.eq_empty_of_forall_notMem fun b hb => ?_
      have hrun : i ≤ b.toNat ∧ b.toNat < p.runEnd i := hb
      omega
    refine ⟨rs, ?_, htext⟩
    rw [membersFrom_eq, hnone, Set.empty_union]
    exact hrs
  | case4 i gap hi =>
    rw [membersFrom_of_lt (Nat.lt_of_not_le hi)]
    exact ⟨[], .nil, rfl⟩

/-- **The walk writes the text of the set.** -/
theorem text_toSet (p : PackedBytes) : p.toSet.text = p.text := by
  obtain ⟨rs, hrs, htext⟩ := p.exists_listing_eq 0 ""
  have hall : p.membersFrom 0 = {b | p.toSet.contains b = true} := by
    refine Set.ext fun b => ?_
    rw [Set.mem_ofPred_eq, contains_toSet]
    exact and_iff_right (Nat.zero_le _)
  rw [hall] at hrs
  rw [ByteSet.text, text, htext, runsText_empty, p.toSet.listsRuns.unique hrs]

example : (empty.insert 0x61 |>.insertRange 0xFE 0xFF).text = "ByteBitmap[0x61 0xfe-0xff]" := by
  rw [← text_toSet]
  decide +kernel

theorem text_injective : Function.Injective text := by
  intro p q h
  rw [← text_toSet, ← text_toSet] at h
  exact toSet_injective (ByteSet.text_injective h)

end PackedBytes

/-! ## Answers -/

/-- Everything that can be asked of a set of bytes. -/
structure Answers where
  contains : Byte → Bool
  toList : List Byte
  count : Nat
  isEmpty : Bool
  text : String

/-- The answers that a set has to give. -/
structure Answers.AreOf (a : Answers) (members : Set Byte) : Prop where
  contains_iff : ∀ b, a.contains b = true ↔ b ∈ members
  mem_toList : ∀ b, b ∈ a.toList ↔ b ∈ members
  ascending : a.toList.Pairwise (· < ·)
  count_eq : a.count = members.ncard
  isEmpty_iff : a.isEmpty = true ↔ members = ∅
  text_eq : ∃ rs : List (Byte × Byte),
    (∀ t, t ∈ rs ↔ IsRun members t) ∧ rs.Pairwise (fun t u => t.1 < u.1) ∧
      a.text = "ByteBitmap[" ++ " ".intercalate (rs.map ByteSet.runText) ++ "]"

def ByteSet.answers (s : ByteSet) : Answers := ⟨s.contains, s.toList, s.count, s.isEmpty, s.text⟩

def PackedBytes.answers (p : PackedBytes) : Answers :=
  ⟨p.contains, p.toList, p.count, p.isEmpty, p.text⟩

theorem ByteSet.count_eq_ncard (s : ByteSet) : s.count = {b | s.contains b = true}.ncard := by
  have hset : {b | s.contains b = true} = (s.toList.toFinset : Set Byte) := by
    refine Set.ext fun b => ?_
    rw [SetLike.mem_coe, List.mem_toFinset, mem_toList]
    rfl
  have hnodup : s.toList.Nodup := s.pairwise_toList.imp UInt8.ne_of_lt
  rw [hset, Set.ncard_coe_finset, List.toFinset_card_of_nodup hnodup, count]

theorem ByteSet.areOf_answers (s : ByteSet) : s.answers.AreOf {b | s.contains b = true} where
  contains_iff _ := Iff.rfl
  mem_toList := s.mem_toList
  ascending := s.pairwise_toList
  count_eq := s.count_eq_ncard
  isEmpty_iff := by
    refine isEmpty_iff.trans ⟨?_, fun h => ?_⟩
    · rintro rfl
      simp
    · refine ext fun b => ?_
      have hb : b ∉ {b | s.contains b = true} := h ▸ Set.notMem_empty b
      rw [contains_empty]
      exact Bool.eq_false_of_not_eq_true hb
  text_eq := ⟨s.runs, fun _ => s.listsRuns.mem_iff_isRun, s.listsRuns.ascending, rfl⟩

theorem PackedBytes.answers_toSet (p : PackedBytes) : p.toSet.answers = p.answers := by
  rw [ByteSet.answers, answers, funext p.contains_toSet, p.toList_toSet, p.count_toSet,
    p.isEmpty_toSet, p.text_toSet]

/-! ## Origins -/

/-- The operations that led to a set, the last one outermost. The other set of a union has an origin
of its own. -/
inductive Origin where
  | ofList (bs : List Byte)
  | insert (o : Origin) (b : Byte)
  | insertRange (o : Origin) (lo hi : Byte)
  | union (o₁ o₂ : Origin)
  | compl (o : Origin)

namespace Origin

/-- The operations on words. -/
def packed : Origin → PackedBytes
  | ofList bs => .ofList bs
  | insert o b => o.packed.insert b
  | insertRange o lo hi => o.packed.insertRange lo hi
  | union o₁ o₂ => o₁.packed.union o₂.packed
  | compl o => o.packed.compl

/-- The operations on one bit for each byte. -/
def bytes : Origin → ByteSet
  | ofList bs => .ofList bs
  | insert o b => o.bytes.insert b
  | insertRange o lo hi => o.bytes.insertRange lo hi
  | union o₁ o₂ => o₁.bytes.union o₂.bytes
  | compl o => o.bytes.compl

/-- The bytes that are members after all operations. -/
def members : Origin → Set Byte
  | ofList bs => {b | b ∈ bs}
  | insert o b => o.members ∪ {b}
  | insertRange o lo hi => o.members ∪ {b | lo ≤ b ∧ b ≤ hi}
  | union o₁ o₂ => o₁.members ∪ o₂.members
  | compl o => (o.members)ᶜ

theorem contains_bytes (o : Origin) (b : Byte) : o.bytes.contains b = true ↔ b ∈ o.members := by
  induction o with
  | ofList bs => simp [bytes, members]
  | insert o c ih =>
    rw [bytes, members, ByteSet.contains_insert, Bool.or_eq_true, ih, beq_iff_eq]
    exact or_congr_right eq_comm
  | insertRange o lo hi ih => simp [bytes, members, ih]
  | union o₁ o₂ ih₁ ih₂ => simp [bytes, members, ih₁, ih₂]
  | compl o ih =>
    rw [bytes, members, ByteSet.contains_compl, Set.mem_compl_iff, ← ih, Bool.not_eq_true,
      Bool.not_eq_true']

theorem toSet_packed (o : Origin) : o.packed.toSet = o.bytes := by
  induction o with
  | ofList bs => exact PackedBytes.toSet_ofList bs
  | insert o b ih => rw [packed, bytes, PackedBytes.toSet_insert, ih]
  | insertRange o lo hi ih => rw [packed, bytes, PackedBytes.toSet_insertRange, ih]
  | union o₁ o₂ ih₁ ih₂ => rw [packed, bytes, PackedBytes.toSet_union, ih₁, ih₂]
  | compl o ih => rw [packed, bytes, PackedBytes.toSet_compl, ih]

/-- **Whatever operations lead to it, a set answers as its members do**, packed into words or not.
Its text names each byte by two digits, and no other set has the same text. -/
theorem answers_areOf (o : Origin) :
    o.packed.answers.AreOf o.members ∧ o.bytes.answers = o.packed.answers ∧
      (∀ p : PackedBytes, p.text = o.packed.text ↔ p = o.packed) ∧
      (∀ s : ByteSet, s.text = o.bytes.text ↔ s = o.bytes) ∧
      ∀ b : Byte,
        b.hex.toList = ['0', 'x', (b.toNat / 16).digitChar, (b.toNat % 16).digitChar] := by
  have hmembers : {b | o.bytes.contains b = true} = o.members := Set.ext o.contains_bytes
  have hanswers : o.bytes.answers = o.packed.answers := by
    rw [← toSet_packed, PackedBytes.answers_toSet]
  refine ⟨?_, hanswers, fun p => PackedBytes.text_injective.eq_iff,
    fun s => ByteSet.text_injective.eq_iff, Byte.toList_hex⟩
  rw [← hanswers, ← hmembers]
  exact o.bytes.areOf_answers

end Origin

end ByteRegex
