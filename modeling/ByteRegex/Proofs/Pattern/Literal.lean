import ByteRegex.Proofs.Fragment.WellFormed
import ByteRegex.Proofs.Pattern.Compose
import ByteRegex.Proofs.Text.Bytes
import ByteRegex.Proofs.Thompson.Recursion

/-!
# Escaped texts

The bytes of an escaped text are lexed to the bytes of the text (`Escape.emits_text`). A mark is a
single byte, which stands for itself after a backslash. Every other byte stands for itself without
one, also the bytes of characters beyond ASCII, which are no marks.

Bytes one after another write the tree that concatenates them, nested to the right
(`Lexer.Emits.writes_bytes`).
-/

namespace ByteRegex

open Text

/-! ## Marks -/

namespace Escape

variable {b : Byte} {c : Char}

theorem toNat_lt_of_mem_marks (h : c ∈ marks) : c.toNat < 0x80 := by
  have hall : marks.all (·.toNat < 0x80) = true := rfl
  simpa using List.all_eq_true.mp hall c h

theorem toNat_char (b : Byte) : b.char.toNat = b.toNat := rfl

theorem char_ofNat_toNat (h : c.toNat < 0x80) : Byte.char (UInt8.ofNat c.toNat) = c := by
  refine Char.toNat_inj.mp ?_
  rw [toNat_char, UInt8.toNat_ofNat_of_lt' (Nat.lt_trans h (by decide))]

theorem isMark_of_le (h : 0x80 ≤ b.toNat) : isMark b = false := by
  refine Bool.eq_false_iff.mpr fun hmark => ?_
  have hlt := toNat_lt_of_mem_marks (List.contains_iff_mem.mp hmark)
  rw [toNat_char] at hlt
  omega

/-- Without a backslash, a byte stands for itself unless it is a mark. -/
theorem plainStep_of_not_isMark (h : isMark b = false) :
    Lexer.plainStep b = (.plain, [.byte b]) := by
  unfold isMark at h
  unfold Lexer.plainStep
  split
  case h_13 => rfl
  all_goals
    next hchar =>
      rw [hchar] at h
      cases h

theorem emits_of_not_isMark {bs : List Byte} (h : ∀ b ∈ bs, isMark b = false) :
    Lexer.Emits bs (bs.map .byte) := by
  induction bs with
  | nil => rfl
  | cons b bs ih =>
    obtain ⟨hb, hbs⟩ := List.forall_mem_cons.mp h
    exact (Lexer.emits_of_plainStep (plainStep_of_not_isMark hb)).append (ih hbs)

/-- With a backslash, a mark stands for itself. -/
theorem emits_of_isMark (h : isMark b = true) : Lexer.Emits [0x5C, b] [.byte b] := by
  have hopen : Lexer.step .plain 0x5C = .ok (.escape, []) := rfl
  have hstep : Lexer.step .escape b = .ok (.plain, [.byte b]) := by
    rw [Lexer.step, Lexer.escapeStep, ofByte?, if_pos h]
    rfl
  rw [Lexer.Emits, Lexer.run_cons_of_silent hopen, Lexer.run, hstep]
  rfl

/-- **A character that is escaped is lexed to its bytes.** -/
theorem emits_ofChar (c : Char) :
    Lexer.Emits ((ofChar c).flatMap String.utf8EncodeChar)
      ((String.utf8EncodeChar c).map .byte) := by
  by_cases hc : c ∈ marks
  · have hlt := toNat_lt_of_mem_marks hc
    have hchars : ofChar c = ['\\', c] := by rw [ofChar, if_pos (by simpa using hc)]
    have hmark : isMark (UInt8.ofNat c.toNat) = true := by
      rw [isMark, char_ofNat_toNat hlt]
      simpa using hc
    rw [hchars, List.flatMap_cons, List.flatMap_singleton, utf8EncodeChar_of_lt hlt]
    exact emits_of_isMark hmark
  · have hchars : ofChar c = [c] := by rw [ofChar, if_neg (by simpa using hc)]
    rw [hchars, List.flatMap_singleton]
    refine emits_of_not_isMark ?_
    by_cases hlt : c.toNat < 0x80
    · rw [utf8EncodeChar_of_lt hlt, List.forall_mem_singleton, isMark, char_ofNat_toNat hlt]
      simpa using hc
    · intro b hb
      exact isMark_of_le (le_of_mem_utf8EncodeChar (Nat.not_lt.mp hlt) b hb)

/-- **An escaped text is lexed to the bytes of the text.** -/
theorem emits_text (t : String) :
    Lexer.Emits (text t).toUTF8.toList (t.toUTF8.toList.map .byte) := by
  rw [text, toList_toUTF8_ofList, toList_toUTF8]
  induction t.toList with
  | nil => rfl
  | cons c cs ih =>
    rw [List.flatMap_cons, List.flatMap_append, List.flatMap_cons, List.map_append]
    exact (emits_ofChar c).append ih

end Escape

/-! ## Bytes one after another -/

/-- The tree of a sequence of bytes that is not empty. -/
def TokenTree.bytes : Byte → List Byte → TokenTree
  | b, [] => .leaf (.byte b) rfl
  | b, c :: cs => .binary (.op .concat) rfl (.leaf (.byte b) rfl) (bytes c cs)

namespace TokenTree

variable {b : Byte} {bs : List Byte} {buffer : Buffer} {i : Nat}

theorem derives_bytes (b : Byte) (bs : List Byte) :
    Derives .sequence (Token.joinOperands ((b :: bs).map .byte)) (bytes b bs) := by
  induction bs generalizing b with
  | nil => exact .repetition (.primary (.atom rfl))
  | cons c bs ih => exact .concat (.primary (.atom rfl)) (ih c)

theorem cons_isPrefix_drop_iff :
    b :: bs <+: buffer.toList.drop i ↔ buffer[i]? = some b ∧ bs <+: buffer.toList.drop (i + 1) := by
  rw [← Array.getElem?_toList]
  by_cases hi : i < buffer.toList.length
  · rw [List.drop_eq_getElem_cons hi, List.cons_prefix_cons, List.getElem?_eq_getElem hi,
      Option.some_inj, eq_comm]
  · have hle := Nat.not_lt.mp hi
    rw [List.drop_eq_nil_of_le hle, List.getElem?_eq_none hle]
    simp

/-- A letter that is a byte is read where the byte is. -/
theorem derives_byte_iff {c d : Progress} :
    (Expr.letter (.byte b)).Derives buffer c d ↔
      buffer[c.pos]? = some b ∧ d = ⟨c.letters + 1, c.pos + 1⟩ := by
  obtain ⟨m, j⟩ := d
  constructor
  · rintro ⟨hm, ⟨e, he, heq⟩, hj⟩
    obtain rfl := beq_iff_eq.mp heq
    exact ⟨he, congrArg₂ Progress.mk hm hj⟩
  · rintro ⟨hb, heq⟩
    obtain ⟨rfl, rfl⟩ := Progress.mk.inj heq
    exact ⟨rfl, ⟨b, hb, beq_self_eq_true b⟩, rfl⟩

/-- **Bytes one after another are read where they occur.** -/
theorem derives_bytes_iff {c d : Progress} :
    (bytes b bs).expr.Derives buffer c d ↔
      b :: bs <+: buffer.toList.drop c.pos ∧
        d = ⟨c.letters + (b :: bs).length, c.pos + (b :: bs).length⟩ := by
  induction bs generalizing b c with
  | nil =>
    rw [cons_isPrefix_drop_iff]
    exact derives_byte_iff.trans (and_congr_left' (and_iff_left List.nil_prefix).symm)
  | cons e bs ih =>
    rw [cons_isPrefix_drop_iff]
    constructor
    · rintro ⟨m, hm, hd⟩
      obtain ⟨hb, rfl⟩ := derives_byte_iff.mp hm
      obtain ⟨hbs, rfl⟩ := ih.mp hd
      refine ⟨⟨hb, hbs⟩, ?_⟩
      simp only [List.length_cons, Progress.mk.injEq]
      omega
    · rintro ⟨⟨hb, hbs⟩, rfl⟩
      refine ⟨_, derives_byte_iff.mpr ⟨hb, rfl⟩, ih.mpr ⟨hbs, ?_⟩⟩
      simp only [List.length_cons, Progress.mk.injEq]
      omega

open Thompson in
/-- The fragment of a sequence of bytes has one state more than there are bytes. -/
theorem exists_compile_bytes {cfg : Settings} (classes : Array ByteClass) (b : Byte)
    (bs : List Byte) (h : bs.length + 2 ≤ cfg.budget) :
    ∃ f, (bytes b bs).compile cfg classes = .ok (f, classes) ∧ f.WellFormed ∧
      f.size = bs.length + 2 := by
  have hleaf (b : Byte) : (leaf (.byte b) rfl).compile cfg classes =
      .ok (.leaf (.byte b), classes) :=
    compile_leaf_eq_ok_iff.mpr ⟨rfl, rfl, Nat.le_trans (Nat.le_add_left _ _) h⟩
  induction bs generalizing b with
  | nil => exact ⟨_, hleaf b, .leaf _, rfl⟩
  | cons c bs ih =>
    rw [List.length_cons] at h ⊢
    obtain ⟨f, hf, hwf, hsize⟩ := ih c (by omega)
    have hconcat : ((Fragment.leaf (.byte b)).concat f).size = bs.length + 1 + 2 := by
      rw [Fragment.size_concat hwf.start_lt, hsize,
        show (Fragment.leaf (.byte b)).size = 2 from rfl]
      omega
    refine ⟨_, ?_, (Fragment.WellFormed.leaf _).concat hwf, hconcat⟩
    exact compile_binary_eq_ok_iff.mpr ⟨_, _, _, hleaf b, hf, rfl, by rwa [hconcat]⟩

end TokenTree

end ByteRegex
