import Mathlib.Data.List.Basic

/-!
# The bytes of a text

A text is the concatenation of its characters in UTF-8. A character below `0x80` is one byte, its
code point; all bytes of the others are at least `0x80`.
-/

namespace ByteRegex.Text

theorem toList_loop (bs : ByteArray) (i : Nat) (r : List UInt8) :
    ByteArray.toList.loop bs i r = r.reverse ++ bs.data.toList.drop i := by
  fun_induction ByteArray.toList.loop bs i r with
  | case1 i r hlt ih =>
    have hlength : i < bs.data.toList.length := by simpa using hlt
    rw [ih, List.drop_eq_getElem_cons hlength]
    simp [ByteArray.get!, hlt]
  | case2 i r hge =>
    have hlength : bs.data.toList.length ≤ i := by simpa using hge
    rw [List.drop_eq_nil_of_le hlength, List.append_nil]

theorem toList_toByteArray (l : List UInt8) : l.toByteArray.toList = l := by
  rw [ByteArray.toList, toList_loop, List.reverse_nil, List.nil_append, List.drop_zero,
    List.toList_data_toByteArray]

theorem toList_toUTF8_ofList (l : List Char) :
    (String.ofList l).toUTF8.toList = l.flatMap String.utf8EncodeChar :=
  toList_toByteArray _

theorem toList_toUTF8 (t : String) : t.toUTF8.toList = t.toList.flatMap String.utf8EncodeChar := by
  rw [← toList_toUTF8_ofList, String.ofList_toList]

theorem length_toList_toUTF8 (t : String) : t.toUTF8.toList.length = t.utf8ByteSize := by
  rw [ByteArray.toList, toList_loop]
  rfl

variable {c : Char}

theorem utf8EncodeChar_of_lt (h : c.toNat < 0x80) :
    String.utf8EncodeChar c = [UInt8.ofNat c.toNat] :=
  if_pos (Nat.le_of_lt_succ h)

theorem le_of_mem_utf8EncodeChar (h : 0x80 ≤ c.toNat) :
    ∀ b ∈ String.utf8EncodeChar c, 0x80 ≤ b.toNat := by
  have hc : 127 < c.val.toNat := h
  unfold String.utf8EncodeChar
  simp only [Nat.not_le.mpr hc, if_false]
  split
  · simp only [List.forall_mem_cons, UInt8.toNat_ofNat']
    refine ⟨by omega, by omega, List.forall_mem_nil _⟩
  · split
    · simp only [List.forall_mem_cons, UInt8.toNat_ofNat']
      refine ⟨by omega, by omega, by omega, List.forall_mem_nil _⟩
    · simp only [List.forall_mem_cons, UInt8.toNat_ofNat']
      refine ⟨by omega, by omega, by omega, by omega, List.forall_mem_nil _⟩

end ByteRegex.Text
