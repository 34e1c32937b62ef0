import ByteRegex.Proofs.Pattern.Lexer
import ByteRegex.Proofs.Pattern.Stream
import Mathlib

/-!
# Parsing accepts the grammar

A pattern has a tree exactly if its tokens are alternatives of the grammar, and then the tree is
theirs.

If the tokens derive from the grammar, they are reordered to those of their token tree, from which
that tree is built (`Derives.ofTokens_eq`). If a tree is built from any tokens of the lexer, their
groups close and their balance is one, which is as much as a stream with explicit juxtaposition can
have, so nothing is missing in it (`Tree.derives_of_ofTokens`). That the grammar has one tree for
each stream follows, since the arena that is built holds one.

Main statement: `Tree.parse_iff_derives`.
-/

namespace ByteRegex

variable {ts : List Token} {p : Phrase} {s s' : TokenTree} {tree : Tree}

namespace Derives

theorem ne_nil (h : Derives p ts s) : ts ≠ [] := by
  induction h with
  | primary _ ih | repetition _ ih | sequence _ ih => exact ih
  | _ => simp

/-- The tree of a phrase is the one that is built from its tokens. -/
theorem ofTokens_eq (h : Derives .alternatives ts s) :
    ∃ nodes root, Tree.ofTokens ts = .ok ⟨nodes, some root⟩ ∧ Tree.Holds nodes root s := by
  obtain ⟨more, root, hs, hbuild⟩ := Tree.exists_build_ordered s #[] []
  refine ⟨#[] ++ more, root, ?_, hs⟩
  have hfinal := hbuild []
  rw [List.append_nil] at hfinal
  rw [Tree.ofTokens, if_neg (by simp [h.ne_nil]), h.reorder_eq]
  exact hfinal

/-- A stream has at most one tree. -/
theorem unique (h : Derives .alternatives ts s) (h' : Derives .alternatives ts s') : s = s' := by
  obtain ⟨nodes, root, hts, hs⟩ := h.ofTokens_eq
  obtain ⟨nodes', root', hts', hs'⟩ := h'.ofTokens_eq
  cases hts.symm.trans hts'
  exact hs.unique hs'

end Derives

namespace Tree

/-- Tokens from which a tree is built have balance one, and their groups close. -/
theorem closes_of_ofTokens (hne : ts ≠ []) (h : ofTokens ts = .ok tree) :
    Token.Closes 0 ts ∧ Token.balance ts = 1 := by
  rw [ofTokens, if_neg (by simp [hne])] at h
  obtain ⟨us, hus, hbuild⟩ := bind_eq_ok h
  refine ⟨Token.place_isOk_iff.mp ⟨us, hus⟩, ?_⟩
  have hperm := Token.balance_eq_of_perm (Token.perm_of_place hus)
  have hbalance := balance_of_build hbuild
  rw [List.flatMap_nil, List.nil_append, Token.balance_filter_marks] at hperm
  rw [← hperm]
  simpa using hbalance

/-- Nothing is missing in tokens from which a tree is built. -/
theorem derives_of_ofTokens (hj : Token.Joined false ts) (hne : ts ≠ [])
    (h : ofTokens ts = .ok tree) : ∃ s, Derives .alternatives ts s := by
  obtain ⟨hclose, hbalance⟩ := closes_of_ofTokens hne h
  exact (hj.fits hbalance).derives hclose

variable {pattern : List Byte}

theorem parse_eq (ht : tokenize pattern = .ok ts) : parse pattern = ofTokens ts := by
  rw [parse, ht]
  rfl

theorem joined_of_tokenize (ht : tokenize pattern = .ok ts) : Token.Joined false ts := by
  obtain ⟨-, us, -, rfl⟩ := tokenize_eq_ok_iff.mp ht
  refine Token.joined_joinOperands us false ?_
  intro _ _ hfalse
  cases hfalse

/-- The tree of the empty pattern is the only one without a root. -/
theorem parse_eq_ok_empty_iff : parse pattern = .ok empty ↔ pattern = [] := by
  constructor
  · intro h
    obtain ⟨ts, ht, h⟩ := bind_eq_ok h
    by_cases hne : ts = []
    · rw [hne] at ht
      exact tokenize_eq_ok_nil_iff.mp ht
    · obtain ⟨s, hs⟩ := derives_of_ofTokens (joined_of_tokenize ht) hne h
      obtain ⟨nodes, root, hts, -⟩ := hs.ofTokens_eq
      cases h.symm.trans hts
  · rintro rfl
    rfl

/-- **Parsing accepts exactly the grammar of patterns, and builds the tree of the derivation.** A
pattern that is not empty has a tree if and only if its tokens derive from the grammar. What lies
below the root is then the one tree that they derive. The empty pattern, and no other, has the tree
without nodes and root. -/
theorem parse_iff_derives (pattern : List Byte) :
    (parse pattern = .ok empty ↔ pattern = []) ∧
      ∀ ts, pattern ≠ [] → tokenize pattern = .ok ts →
        ((∃ tree, parse pattern = .ok tree) ↔ ∃ s, Derives .alternatives ts s) ∧
          ∀ tree, parse pattern = .ok tree →
            ∃ root s, tree.root = some root ∧ Holds tree.nodes root s ∧
              Derives .alternatives ts s ∧ ∀ s', Derives .alternatives ts s' → s' = s := by
  refine ⟨parse_eq_ok_empty_iff, ?_⟩
  intro ts hpattern ht
  have hne : ts ≠ [] := by
    rintro rfl
    exact hpattern (tokenize_eq_ok_nil_iff.mp ht)
  rw [parse_eq ht]
  have hsound : ∀ tree, ofTokens ts = .ok tree → ∃ s, Derives .alternatives ts s := by
    intro tree h
    exact derives_of_ofTokens (joined_of_tokenize ht) hne h
  refine ⟨⟨?_, ?_⟩, ?_⟩
  · rintro ⟨tree, h⟩
    exact hsound tree h
  · rintro ⟨s, hs⟩
    obtain ⟨nodes, root, hts, -⟩ := hs.ofTokens_eq
    exact ⟨_, hts⟩
  · intro tree h
    obtain ⟨s, hs⟩ := hsound tree h
    obtain ⟨nodes, root, hts, hholds⟩ := hs.ofTokens_eq
    cases h.symm.trans hts
    refine ⟨root, s, rfl, hholds, hs, ?_⟩
    intro s' hs'
    exact hs'.unique hs

/-- The pattern `(a|bc)*`: the group is gone, and the star has all of it below. -/
theorem parse_iff_derives_group :
    ∃ s, tokenize [0x28, 0x61, 0x7C, 0x62, 0x63, 0x29, 0x2A] = .ok [.openGroup, .byte 0x61,
        .op .alternation, .byte 0x62, .op .concat, .byte 0x63, .closeGroup, .op .star] ∧
      parse [0x28, 0x61, 0x7C, 0x62, 0x63, 0x29, 0x2A] = .ok ⟨#[⟨.byte 0x61, none, none⟩,
        ⟨.byte 0x62, none, none⟩, ⟨.byte 0x63, none, none⟩, ⟨.op .concat, some 1, some 2⟩,
        ⟨.op .alternation, some 0, some 3⟩, ⟨.op .star, some 4, none⟩], some 5⟩ ∧
      Holds #[⟨.byte 0x61, none, none⟩, ⟨.byte 0x62, none, none⟩, ⟨.byte 0x63, none, none⟩,
        ⟨.op .concat, some 1, some 2⟩, ⟨.op .alternation, some 0, some 3⟩,
        ⟨.op .star, some 4, none⟩] 5 s ∧
      Derives .alternatives [.openGroup, .byte 0x61, .op .alternation, .byte 0x62, .op .concat,
        .byte 0x63, .closeGroup, .op .star] s := by
  have ht : tokenize [0x28, 0x61, 0x7C, 0x62, 0x63, 0x29, 0x2A] = .ok [.openGroup, .byte 0x61,
      .op .alternation, .byte 0x62, .op .concat, .byte 0x63, .closeGroup, .op .star] := by cbv
  have hp : parse [0x28, 0x61, 0x7C, 0x62, 0x63, 0x29, 0x2A] = .ok ⟨#[⟨.byte 0x61, none, none⟩,
      ⟨.byte 0x62, none, none⟩, ⟨.byte 0x63, none, none⟩, ⟨.op .concat, some 1, some 2⟩,
      ⟨.op .alternation, some 0, some 3⟩, ⟨.op .star, some 4, none⟩], some 5⟩ := by cbv
  obtain ⟨-, h⟩ := parse_iff_derives [0x28, 0x61, 0x7C, 0x62, 0x63, 0x29, 0x2A]
  obtain ⟨-, htree⟩ := h _ (by simp) ht
  obtain ⟨root, s, hroot, hs, hderives, -⟩ := htree _ hp
  cases hroot
  exact ⟨s, ht, hp, hs, hderives⟩

end Tree

end ByteRegex
