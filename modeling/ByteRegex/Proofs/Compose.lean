import ByteRegex.Proofs.Pattern.Compose
import ByteRegex.Proofs.Regex

/-!
# Pattern text composes

Two patterns that have trees can be put into parentheses, repeated, put next to each other and put
on both sides of a bar. The arena, the tree or the language of the result is then made of theirs
(`patterns_compose`). A repetition with a star can be of no copies, so it matches everywhere
(`Regex.isSome_longestMatchAt_of_star`).
-/

namespace ByteRegex

variable {r s : List Byte} {a b : Tree}

/-- A star matches at every offset, whatever it repeats. -/
theorem Regex.isSome_longestMatchAt_of_star {pattern : List Byte} {flags : Flags} {rx : Regex}
    {t : Tree} {e : Expr} {buffer : Buffer} {offset : Nat} (h : compile pattern flags = .ok rx)
    (ht : Tree.parse pattern = .ok t) (he : t.Denotes (.star e)) (hoffset : offset ≤ buffer.size) :
    (rx.longestMatchAt buffer offset).isSome := by
  have hlongest := isLongest_of_compile h ht he hoffset
  cases hlength : rx.longestMatchAt buffer offset with
  | some length => rfl
  | none =>
    rw [hlength] at hlongest
    exact absurd ⟨0, Nat.zero_le _, Relation.ReflTransGen.refl⟩ (hlongest 0)

/-- **Pattern text composes.** Let two patterns that are not empty have trees.

* In parentheses, the first has the same arena.
* With `*`, `+`, `?` or a count behind the parentheses, it has this arena and one node above its
  root.
* In parentheses next to each other, both have a concatenation of their trees.
* With a bar between them, they have a tree that describes what either of them describes.
* If the first in parentheses with a star behind it compiles, it matches at every offset. -/
theorem patterns_compose (hr : r ≠ []) (hs : s ≠ []) (ha : Tree.parse r = .ok a)
    (hb : Tree.parse s = .ok b) :
    ((parenthesize r).length ≤ maxPatternLength → Tree.parse (parenthesize r) = .ok a) ∧
      (∀ text t, WritesPostfix text t → (parenthesize r ++ text).length ≤ maxPatternLength →
        Tree.parse (parenthesize r ++ text) =
          .ok ⟨a.nodes.push ⟨t, a.root, none⟩, some a.nodes.size⟩) ∧
      ((parenthesize r ++ parenthesize s).length ≤ maxPatternLength →
        ∃ c u v, Tree.parse (parenthesize r ++ parenthesize s) = .ok c ∧ a.Represents u ∧
          b.Represents v ∧ c.Represents (.binary (.op .concat) rfl u v)) ∧
      ((r ++ 0x7C :: s).length ≤ maxPatternLength →
        ∃ c e f g, Tree.parse (r ++ 0x7C :: s) = .ok c ∧ c.Denotes e ∧ a.Denotes f ∧
          b.Denotes g ∧ e.language = f.language + g.language ∧
          ∀ buffer i j, e.Derives buffer i j ↔ f.Derives buffer i j ∨ g.Derives buffer i j) ∧
      ∀ flags rx, Regex.compile (parenthesize r ++ [0x2A]) flags = .ok rx →
        ∀ buffer offset, offset ≤ buffer.size → (rx.longestMatchAt buffer offset).isSome := by
  obtain ⟨u, hu, hau, hordered⟩ := Tree.exists_writes_of_parse hr ha
  obtain ⟨v, hv, hbv, -⟩ := Tree.exists_writes_of_parse hs hb
  have hoperator {text : List Byte} {t : Token} (ht : WritesPostfix text t) :
      Writes .alternatives (parenthesize r ++ text) (.unary t ht.role_eq u) :=
    (hu.group.primary.unary ht).repetition.sequence
  refine ⟨?_, ?_, ?_, ?_, ?_⟩
  · intro hlength
    rw [hu.group.primary.repetition.sequence.parse_eq hlength, hordered]
  · intro text t ht hlength
    rw [(hoperator ht).parse_eq hlength, Tree.ofOrdered_unary ht.role_eq hordered]
  · intro hlength
    obtain ⟨c, hc, hrepresents⟩ := (hu.concat hv).sequence.exists_parse_eq hlength
    exact ⟨c, u, v, hc, hau, hbv, hrepresents⟩
  · intro hlength
    obtain ⟨t, ht, hlanguage⟩ := hu.alternation hv
    obtain ⟨c, hc, hrepresents⟩ := ht.exists_parse_eq hlength
    refine ⟨c, _, _, _, hc, hrepresents.denotes, hau.denotes, hbv.denotes, hlanguage, ?_⟩
    intro buffer i j
    rw [Expr.derives_iff, Expr.derives_iff, Expr.derives_iff, hlanguage, spans_add]
  · intro flags rx hrx buffer offset hoffset
    obtain ⟨t, -, ht, -⟩ := Regex.exists_of_compile hrx
    have hlength := Tree.length_le_of_parse ht
    obtain ⟨c, hc, hrepresents⟩ := (hoperator .star).exists_parse_eq hlength
    exact Regex.isSome_longestMatchAt_of_star hrx hc hrepresents.denotes hoffset

/-- The patterns `a|b` and `c`: the first in parentheses, with a count behind it, before the second,
and with a star behind it. -/
theorem patterns_compose_bar :
    Tree.parse [0x28, 0x61, 0x7C, 0x62, 0x29] = .ok ⟨#[⟨.byte 0x61, none, none⟩,
        ⟨.byte 0x62, none, none⟩, ⟨.op .alternation, some 0, some 1⟩], some 2⟩ ∧
      Tree.parse [0x28, 0x61, 0x7C, 0x62, 0x29, 0x7B, 0x31, 0x2C, 0x32, 0x7D] =
        .ok ⟨#[⟨.byte 0x61, none, none⟩, ⟨.byte 0x62, none, none⟩,
          ⟨.op .alternation, some 0, some 1⟩, ⟨.count 1 (some 2), some 2, none⟩], some 3⟩ ∧
      (∃ c u v, Tree.parse [0x28, 0x61, 0x7C, 0x62, 0x29, 0x28, 0x63, 0x29] = .ok c ∧
        c.Represents (.binary (.op .concat) rfl u v)) ∧
      (∃ c, Tree.parse [0x61, 0x7C, 0x62, 0x7C, 0x63] = .ok c) ∧
      ∃ rx, Regex.compile [0x28, 0x61, 0x7C, 0x62, 0x29, 0x2A] {} = .ok rx ∧
        (rx.longestMatchAt #[0x63] 1).isSome := by
  have hparse : Tree.parse [0x61, 0x7C, 0x62] = .ok ⟨#[⟨.byte 0x61, none, none⟩,
      ⟨.byte 0x62, none, none⟩, ⟨.op .alternation, some 0, some 1⟩], some 2⟩ := by cbv
  have hparse' : Tree.parse [0x63] = .ok ⟨#[⟨.byte 0x63, none, none⟩], some 0⟩ := by cbv
  obtain ⟨rx, hrx⟩ := exists_ok_of_isOk
    (show (Regex.compile [0x28, 0x61, 0x7C, 0x62, 0x29, 0x2A] {}).isOk = true by cbv)
  obtain ⟨hgroup, hoperator, hconcat, hbar, hstar⟩ :=
    patterns_compose (List.cons_ne_nil _ _) (List.cons_ne_nil _ _) hparse hparse'
  have hone : Lexer.IsNumeral [0x31] 1 := @Lexer.isNumeral_decimal 1 (by decide)
  have htwo : Lexer.IsNumeral [0x32] 2 := @Lexer.isNumeral_decimal 2 (by decide)
  obtain ⟨c, u, v, hc, -, -, huv⟩ := hconcat (by decide)
  obtain ⟨d, _, _, _, hd, -⟩ := hbar (by decide)
  exact ⟨hgroup (by decide), hoperator _ _ (.count hone htwo (by decide)) (by decide),
    ⟨c, u, v, hc, huv⟩, ⟨d, hd⟩, rx, hrx, hstar {} rx hrx #[0x63] 1 (by decide)⟩

end ByteRegex
