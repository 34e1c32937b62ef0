import ByteRegex.Proofs.Buffer.Place
import Mathlib.Data.List.Chain

/-!
# Lines make up their buffer

The lines of a buffer lie one behind another, a newline apart, from its start to its end. So nothing
is lost when a buffer is read line by line: with newlines between them, and one behind the last line
if the buffer ends in one, the lines are the buffer (`Lines.join_toList`).

A reader is asked for a line again and again (`Lines.readings`). It gives the lines in order, and
nothing ever after (`Lines.readings_eq`).

Main statement: `Lines.partition_ofBuffer`.
-/

namespace ByteRegex

/-- The newline at the end of a text, if there is one. -/
def finalNewline (text : List Byte) : List Byte :=
  if text.getLast? = some Byte.newline then [Byte.newline] else []

variable {buffer : Buffer} {l : Line} {ls rest : Lines} {lines : List Line} {text : List Byte}

theorem finalNewline_of_not_mem (h : Byte.newline ∉ text) : finalNewline text = [] :=
  if_neg fun hlast => h (List.mem_of_getLast? hlast)

theorem finalNewline_append (us : List Byte) (h : text ≠ []) :
    finalNewline (us ++ text) = finalNewline text := by
  rw [finalNewline, List.getLast?_append_of_ne_nil _ h, finalNewline]

namespace Lines

/-- The bytes of lines, with a newline between any two. -/
def join (lines : List Line) : List Byte :=
  [Byte.newline].intercalate (lines.map (·.bytes.toList))

/-- What a reader gives when it is asked a number of times. It stays where it is when no line is
left. -/
def readings : Nat → Lines → List (Option Line)
  | 0, _ => []
  | n + 1, ls =>
    match ls.next? with
    | some (l, rest) => some l :: readings n rest
    | none => none :: readings n ls

theorem join_singleton : join [l] = l.bytes.toList := List.intercalate_singleton

theorem join_cons (h : lines ≠ []) :
    join (l :: lines) = l.bytes.toList ++ Byte.newline :: join lines := by
  obtain ⟨m, lines, rfl⟩ := List.exists_cons_of_ne_nil h
  rw [join, List.map_cons, List.map_cons, List.intercalate_cons_cons, List.append_assoc]
  rfl

/-! ## One reading -/

theorem done_of_next?_eq_none (h : ls.next? = none) : ls.done = true := by
  unfold next? at h
  split at h
  · assumption
  · split at h <;> cases h

theorem toList_of_next?_eq_none (h : ls.next? = none) : ls.toList = [] :=
  toList_of_done (done_of_next?_eq_none h)

theorem toList_ne_nil (h : ls.done = false) : ls.toList ≠ [] := by
  cases hnext : ls.next? with
  | none => cases (done_of_next?_eq_none hnext).symm.trans h
  | some next =>
    rw [toList_of_next? hnext]
    exact List.cons_ne_nil _ _

/-- A reading takes a line off the rest of the buffer, and the newline behind it. -/
theorem drop_of_next? (h : ls.next? = some (l, rest)) (hpos : ls.pos ≤ ls.buffer.size) :
    rest.done = true ∧ ls.buffer.toList.drop ls.pos = l.bytes.toList ∨
      rest.done = (rest.pos == rest.buffer.size) ∧ rest.pos = l.offset + l.bytes.size + 1 ∧
        ls.buffer.toList.drop ls.pos =
          l.bytes.toList ++ Byte.newline :: rest.buffer.toList.drop rest.pos := by
  obtain ⟨hwithin, hbuffer, -⟩ := within_of_next? h hpos
  obtain ⟨hoffset, hmore⟩ := pos_of_next? h hpos
  have hbytes : l.bytes.toList = (ls.buffer.toList.drop ls.pos).take l.bytes.size := by
    rw [← hoffset, hwithin.bytes_eq, Array.toList_extract, List.extract_eq_take_drop,
      Nat.add_sub_cancel_left, ← hwithin.bytes_eq]
  have hsplit : ls.buffer.toList.drop ls.pos =
      l.bytes.toList ++ ls.buffer.toList.drop (l.offset + l.bytes.size) := by
    rw [hbytes, hoffset, ← List.drop_drop, List.take_append_drop]
  rcases hmore with ⟨hdone, hend⟩ | ⟨hrest, hdone, hnewline⟩
  · refine .inl ⟨hdone, ?_⟩
    rw [hsplit, hend, ← Array.length_toList, List.drop_length, List.append_nil]
  · refine .inr ⟨hbuffer ▸ hdone, hrest, ?_⟩
    rw [← Array.getElem?_toList] at hnewline
    obtain ⟨hlt, hget⟩ := List.getElem?_eq_some_iff.mp hnewline
    rw [hsplit, List.drop_eq_getElem_cons hlt, hget, hbuffer, hrest]

/-! ## All readings -/

/-- The first line that is left begins where reading has come to. -/
theorem offset_of_head? (hpos : ls.pos ≤ ls.buffer.size) (hl : l ∈ ls.toList.head?) :
    l.offset = ls.pos := by
  cases hnext : ls.next? with
  | none =>
    rw [toList_of_next?_eq_none hnext] at hl
    cases hl
  | some next =>
    rw [toList_of_next? hnext] at hl
    obtain rfl := Option.some.inj hl
    exact (pos_of_next? hnext hpos).1

/-- Each line begins one byte behind the line before it. -/
theorem isChain_toList (hpos : ls.pos ≤ ls.buffer.size) :
    ls.toList.IsChain fun l m => m.offset = l.offset + l.bytes.size + 1 := by
  fun_induction toList ls with
  | case1 ls line rest hnext ih =>
    obtain ⟨-, -, hrest⟩ := within_of_next? hnext hpos
    refine List.isChain_cons.mpr ⟨fun m hm => ?_, ih hrest⟩
    rcases drop_of_next? hnext hpos with ⟨hdone, -⟩ | ⟨-, hnextpos, -⟩
    · rw [toList_of_done hdone] at hm
      cases hm
    · rw [offset_of_head? hrest hm, hnextpos]
  | case2 => exact .nil

/-- **The lines that are left are the rest of the buffer**, up to newlines. -/
theorem join_toList (hpos : ls.pos ≤ ls.buffer.size) (hdone : ls.done = false) :
    join ls.toList ++ finalNewline (ls.buffer.toList.drop ls.pos) =
      ls.buffer.toList.drop ls.pos := by
  fun_induction toList ls with
  | case1 ls line rest hnext ih =>
    obtain ⟨hwithin, -, hrest⟩ := within_of_next? hnext hpos
    rcases drop_of_next? hnext hpos with ⟨hlast, hdrop⟩ | ⟨hmore, -, hdrop⟩
    · -- the last line has no newline behind it
      have hmem : Byte.newline ∉ line.bytes.toList :=
        fun h => hwithin.newline_not_mem (Array.mem_toList_iff.mp h)
      rw [toList_of_done hlast, join_singleton, hdrop, finalNewline_of_not_mem hmem,
        List.append_nil]
    · rw [hdrop]
      by_cases hend : rest.pos = rest.buffer.size
      · -- the last line ends in the last byte of the buffer
        have hnil : rest.buffer.toList.drop rest.pos = [] := by
          rw [hend, ← Array.length_toList, List.drop_length]
        rw [toList_of_done (by rw [hmore, hend, beq_self_eq_true]), join_singleton, hnil,
          finalNewline_append _ (List.cons_ne_nil _ _)]
        rfl
      · have hrestdone : rest.done = false := by rw [hmore, beq_eq_false_iff_ne.mpr hend]
        have hne : rest.buffer.toList.drop rest.pos ≠ [] := by
          rw [ne_eq, List.drop_eq_nil_iff, Array.length_toList]
          omega
        have hfinal : finalNewline (Byte.newline :: rest.buffer.toList.drop rest.pos) =
            finalNewline (rest.buffer.toList.drop rest.pos) := finalNewline_append [_] hne
        rw [join_cons (toList_ne_nil hrestdone), finalNewline_append _ (List.cons_ne_nil _ _),
          hfinal, List.append_assoc, List.cons_append, ih hrest hrestdone]
  | case2 ls hnext => cases (done_of_next?_eq_none hnext).symm.trans hdone

/-- **Asked any number of times, a reader gives the lines that are left in order**, and nothing
ever after. -/
theorem readings_eq (n : Nat) (ls : Lines) :
    readings n ls = (List.range n).map (ls.toList[·]?) := by
  induction n generalizing ls with
  | zero => rfl
  | succ n ih =>
    rw [List.range_succ_eq_map, List.map_cons, List.map_map, readings]
    cases hnext : ls.next? with
    | none =>
      dsimp only
      rw [ih, toList_of_next?_eq_none hnext]
      rfl
    | some next =>
      dsimp only
      rw [ih, toList_of_next? hnext]
      rfl

/-- **Lines are a partition of their buffer.** There is at least one. Each is a slice of the buffer
without newlines, the first begins at the start and each other one a newline behind the line before
it. With newlines between them, and one more if the buffer ends in a newline, they are the buffer.
A reader gives them in order, and nothing after the last, however often it is asked. -/
theorem partition_ofBuffer (buffer : Buffer) :
    let lines := (ofBuffer buffer).toList
    lines ≠ [] ∧ (∀ l ∈ lines, l.Within buffer) ∧ (∀ l ∈ lines.head?, l.offset = 0) ∧
      lines.IsChain (fun l m => m.offset = l.offset + l.bytes.size + 1) ∧
      join lines ++ finalNewline buffer.toList = buffer.toList ∧
      ∀ n, readings n (ofBuffer buffer) = (List.range n).map (lines[·]?) := by
  refine ⟨toList_ne_nil rfl, fun l hl => within_of_mem_ofBuffer hl, fun l hl => ?_,
    isChain_toList (Nat.zero_le _), join_toList (Nat.zero_le _) rfl, fun n => readings_eq n _⟩
  exact offset_of_head? (Nat.zero_le _) hl

end Lines

end ByteRegex
