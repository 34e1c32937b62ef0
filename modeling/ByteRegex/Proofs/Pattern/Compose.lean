import ByteRegex.Proofs.Pattern.Denotation
import ByteRegex.Proofs.Pattern.Join
import ByteRegex.Proofs.Pattern.Parse

/-!
# Patterns put together

A text writes a token tree if the tokens that it emits derive the tree (`Writes`). What is written
stays written when text is put around it: in parentheses it becomes a primary, which can be repeated
or put next to another. Between bars, the alternatives of both texts become one chain that nests to
the right. Its tree is not the alternation of the two trees, but it has the same language
(`Derives.alternation_language`).
-/

namespace ByteRegex

/-- A pattern in parentheses. -/
def parenthesize (r : List Byte) : List Byte := 0x28 :: (r ++ [0x29])

/-- The text of an operator behind its operand, or of a count with both bounds. -/
inductive WritesPostfix : List Byte → Token → Prop where
  | star : WritesPostfix [0x2A] (.op .star)
  | plus : WritesPostfix [0x2B] (.op .plus)
  | opt : WritesPostfix [0x3F] (.op .opt)
  | count {ds es : List Byte} {m n : Nat} : Lexer.IsNumeral ds m → Lexer.IsNumeral es n → m ≤ n →
    WritesPostfix (0x7B :: (ds ++ 0x2C :: (es ++ [0x7D]))) (.count m (some n))

namespace WritesPostfix

variable {text : List Byte} {t : Token}

theorem role_eq (h : WritesPostfix text t) : t.role = .unary := by
  cases h <;> rfl

theorem emits (h : WritesPostfix text t) : Lexer.Emits text [t] := by
  cases h with
  | star => exact Lexer.emits_of_plainStep rfl
  | plus => exact Lexer.emits_of_plainStep rfl
  | opt => exact Lexer.emits_of_plainStep rfl
  | count hm hn hmn => exact Lexer.emits_count hm hn hmn

end WritesPostfix

variable {p q : List Byte} {ts us : List Token} {s a b : TokenTree} {tree : Tree}

/-! ## Groups -/

theorem Lexer.Emits.parenthesize (h : Emits p us) :
    Emits (parenthesize p) (.openGroup :: (us ++ [.closeGroup])) := by
  have hopen : Emits [0x28] [.openGroup] := emits_of_plainStep rfl
  have hclose : Emits [0x29] [.closeGroup] := emits_of_plainStep rfl
  exact hopen.append (h.append hclose)

namespace Token

/-- No juxtaposition crosses the marks of a group. -/
theorem joinOperands_group :
    joinOperands (.openGroup :: (us ++ [.closeGroup])) =
      .openGroup :: joinOperands us ++ [.closeGroup] := by
  rw [joinOperands_cons_of_not_ends rfl,
    joinOperands_append_of_head (by simp [beginsOperand, isAtom])]
  rfl

theorem glue_group :
    glue (.openGroup :: (ts ++ [.closeGroup])) (.openGroup :: us) = [.op .concat] := by
  rw [glue, ← List.cons_append, List.getLast?_concat]
  rfl

end Token

/-! ## Chains of alternatives -/

/-- **Alternatives behind a bar continue the alternatives before it**, and what the whole chain
describes is what either part describes. -/
theorem Derives.alternation_language (ha : Derives .alternatives ts a)
    (hb : Derives .alternatives us b) :
    ∃ s, Derives .alternatives (ts ++ .op .alternation :: us) s ∧
      s.expr.language = a.expr.language + b.expr.language := by
  generalize hp : Phrase.alternatives = p at ha
  induction ha with
  | sequence ha _ => exact ⟨_, .alternation (.inl rfl) ha hb, rfl⟩
  | @alternation o vs ws c d ho hc _ _ ih =>
    -- the first alternative stays, the others are continued
    obtain ⟨s, hs, hlanguage⟩ := ih rfl
    have hcd : ∀ e : TokenTree, (TokenTree.binary (.op o) ho.role c e).expr.language =
        c.expr.language + e.expr.language := by
      intro e
      rcases ho with rfl | rfl <;> rfl
    refine ⟨.binary (.op o) ho.role c s, ?_, ?_⟩
    · rw [List.append_assoc]
      exact .alternation ho hc hs
    · rw [hcd, hcd, hlanguage, add_assoc]
  | _ => cases hp

/-! ## Texts and their trees -/

/-- A text writes a tree as a phrase if it emits tokens that derive it. -/
def Writes (phrase : Phrase) (p : List Byte) (s : TokenTree) : Prop :=
  ∃ us, Lexer.Emits p us ∧ Derives phrase (Token.joinOperands us) s

namespace Writes

theorem primary (h : Writes .primary p s) : Writes .repetition p s :=
  h.imp fun _ h => h.imp_right .primary

theorem repetition (h : Writes .repetition p s) : Writes .sequence p s :=
  h.imp fun _ h => h.imp_right .repetition

theorem sequence (h : Writes .sequence p s) : Writes .alternatives p s :=
  h.imp fun _ h => h.imp_right .sequence

/-- A text that writes alternatives is a pattern, whose arena is built from their tree. -/
theorem parse_eq (h : Writes .alternatives p s) (hlength : p.length ≤ maxPatternLength) :
    Tree.parse p = Tree.ofOrdered s.ordered := by
  obtain ⟨us, hus, hs⟩ := h
  rw [Tree.parse_eq (hus.tokenize_eq hlength), Tree.ofTokens, if_neg (by simp [hs.ne_nil]),
    hs.reorder_eq]
  rfl

theorem exists_parse_eq (h : Writes .alternatives p s) (hlength : p.length ≤ maxPatternLength) :
    ∃ tree, Tree.parse p = .ok tree ∧ tree.Represents s := by
  obtain ⟨more, root, hs, hbuild⟩ := Tree.exists_build_ordered s #[] []
  refine ⟨⟨#[] ++ more, some root⟩, ?_, root, rfl, hs⟩
  have hfinal := hbuild []
  rw [List.append_nil] at hfinal
  rw [h.parse_eq hlength]
  exact hfinal

/-- Parentheses make a primary of alternatives. -/
theorem group (h : Writes .alternatives p s) : Writes .primary (parenthesize p) s := by
  obtain ⟨us, hus, hs⟩ := h
  refine ⟨_, hus.parenthesize, ?_⟩
  rw [Token.joinOperands_group]
  exact .group hs

theorem unary {text : List Byte} {t : Token} (h : Writes .repetition p s)
    (ht : WritesPostfix text t) : Writes .repetition (p ++ text) (.unary t ht.role_eq s) := by
  obtain ⟨us, hus, hs⟩ := h
  have hhead : ∀ u ∈ [t].head?, u.beginsOperand = false := by
    rintro u ⟨⟩
    exact (Token.ends_of_unary ht.role_eq).1
  refine ⟨us ++ [t], hus.append ht.emits, ?_⟩
  rw [Token.joinOperands_append_of_head hhead]
  exact .unary ht.role_eq hs

/-- Between two patterns in parentheses a concatenation is understood. -/
theorem concat (ha : Writes .alternatives p a) (hb : Writes .alternatives q b) :
    Writes .sequence (parenthesize p ++ parenthesize q) (.binary (.op .concat) rfl a b) := by
  obtain ⟨us, hus, ha⟩ := ha
  obtain ⟨vs, hvs, hb⟩ := hb
  refine ⟨_, hus.parenthesize.append hvs.parenthesize, ?_⟩
  rw [Token.joinOperands_append, Token.glue_group, Token.joinOperands_group,
    Token.joinOperands_group, List.append_assoc, List.singleton_append]
  exact .concat (.primary (.group ha)) (.repetition (.primary (.group hb)))

theorem alternation (ha : Writes .alternatives p a) (hb : Writes .alternatives q b) :
    ∃ s, Writes .alternatives (p ++ 0x7C :: q) s ∧
      s.expr.language = a.expr.language + b.expr.language := by
  obtain ⟨us, hus, ha⟩ := ha
  obtain ⟨vs, hvs, hb⟩ := hb
  obtain ⟨s, hs, hlanguage⟩ := ha.alternation_language hb
  have hbar : Lexer.Emits [0x7C] [.op .alternation] := Lexer.emits_of_plainStep rfl
  refine ⟨s, ⟨us ++ .op .alternation :: vs, hus.append (hbar.append hvs), ?_⟩, hlanguage⟩
  rw [Token.joinOperands_append_of_head (by simp [Token.beginsOperand, Token.isAtom]),
    Token.joinOperands_cons_of_not_ends rfl]
  exact hs

end Writes

theorem Tree.length_le_of_parse (h : parse p = .ok tree) : p.length ≤ maxPatternLength := by
  obtain ⟨ts, ht, -⟩ := bind_eq_ok h
  exact (tokenize_eq_ok_iff.mp ht).1

/-- A pattern that has a tree and is not empty writes the tree that its arena represents. -/
theorem Tree.exists_writes_of_parse (hp : p ≠ []) (h : parse p = .ok tree) :
    ∃ s, Writes .alternatives p s ∧ tree.Represents s ∧ ofOrdered s.ordered = .ok tree := by
  obtain ⟨ts, ht, hts⟩ := bind_eq_ok h
  obtain ⟨us, hus, rfl⟩ := Lexer.exists_emits_of_tokenize ht
  have hne : Token.joinOperands us ≠ [] := by
    intro hnil
    exact hp (tokenize_eq_ok_nil_iff.mp (hnil ▸ ht))
  obtain ⟨s, hs⟩ := derives_of_ofTokens (joined_of_tokenize ht) hne hts
  have hwrites : Writes .alternatives p s := ⟨us, hus, hs⟩
  have hlength := length_le_of_parse h
  obtain ⟨tree', hparse, hrepresents⟩ := hwrites.exists_parse_eq hlength
  cases h.symm.trans hparse
  exact ⟨s, hwrites, hrepresents, (hwrites.parse_eq hlength).symm.trans h⟩

/-- An operator behind its operand adds a node above the root of the operand's arena. -/
theorem Tree.ofOrdered_unary {t : Token} (ht : t.role = .unary)
    (h : ofOrdered s.ordered = .ok tree) :
    ofOrdered (TokenTree.unary t ht s).ordered =
      .ok ⟨tree.nodes.push ⟨t, tree.root, none⟩, some tree.nodes.size⟩ := by
  obtain ⟨more, root, -, hbuild⟩ := exists_build_ordered s #[] []
  have hfinal := hbuild []
  rw [List.append_nil] at hfinal
  cases h.symm.trans hfinal
  rw [ofOrdered, TokenTree.ordered, hbuild]
  simp [build, ht]

end ByteRegex
