import ByteRegex.Pattern.Tree

/-!
# The grammar of patterns

A token tree (`TokenTree`) is a syntax tree without its arena: a token has the trees of its operands
below it, as many as its role says. `Derives` is the grammar of patterns, and says which tree a
stream of tokens has. From loosest to tightest, its phrases are

    alternatives ::= sequence (('|' | '‖') sequence)*
    sequence     ::= repetition ('·' repetition)*
    repetition   ::= primary unary*
    primary      ::= atom | '(' alternatives ')'

Chains of binary operators nest to the right, so the rules for them are right recursive; a unary
operator takes the whole repetition before it, so its rule is left recursive. Groups leave no trace.

`Tree.Holds` says which token tree lies below a place of an arena; it is at most one
(`Tree.Holds.unique`).
-/

namespace ByteRegex

/-! ## Token trees -/

/-- A tree of tokens, each with as many operands below it as its role says. -/
inductive TokenTree where
  | leaf (t : Token) (ht : t.role = .operand)
  | unary (t : Token) (ht : t.role = .unary) (operand : TokenTree)
  | binary (t : Token) (ht : t.role = .binary) (left right : TokenTree)

/-- The tokens of a tree, each after its operands. -/
def TokenTree.ordered : TokenTree → List Token
  | leaf t _ => [t]
  | unary t _ operand => operand.ordered ++ [t]
  | binary t _ left right => left.ordered ++ right.ordered ++ [t]

/-! ## Phrases -/

/-- The kinds of phrases, from the loosest to the tightest. -/
inductive Phrase where
  | alternatives
  | sequence
  | repetition
  | primary
deriving DecidableEq

/-- Whether an operator stands between alternatives. -/
def Operator.IsAlternation (o : Operator) : Prop := o = .alternation ∨ o = .bracketAlternation

theorem Operator.IsAlternation.role {o : Operator} (ho : o.IsAlternation) :
    (Token.op o).role = .binary := by
  rcases ho with rfl | rfl <;> rfl

/-- **The grammar of patterns**: the streams of tokens that form a phrase, each with its tree. -/
inductive Derives : Phrase → List Token → TokenTree → Prop where
  | atom {t : Token} (ht : t.role = .operand) : Derives .primary [t] (.leaf t ht)
  | group {ts : List Token} {s : TokenTree} :
    Derives .alternatives ts s → Derives .primary (.openGroup :: ts ++ [.closeGroup]) s
  | primary {ts : List Token} {s : TokenTree} : Derives .primary ts s → Derives .repetition ts s
  | unary {t : Token} {ts : List Token} {s : TokenTree} (ht : t.role = .unary) :
    Derives .repetition ts s → Derives .repetition (ts ++ [t]) (.unary t ht s)
  | repetition {ts : List Token} {s : TokenTree} :
    Derives .repetition ts s → Derives .sequence ts s
  | concat {ts us : List Token} {a b : TokenTree} :
    Derives .repetition ts a → Derives .sequence us b →
    Derives .sequence (ts ++ .op .concat :: us) (.binary (.op .concat) rfl a b)
  | sequence {ts : List Token} {s : TokenTree} :
    Derives .sequence ts s → Derives .alternatives ts s
  | alternation {o : Operator} {ts us : List Token} {a b : TokenTree} (ho : o.IsAlternation) :
    Derives .sequence ts a → Derives .alternatives us b →
    Derives .alternatives (ts ++ .op o :: us) (.binary (.op o) ho.role a b)

/-! ## Arenas -/

namespace Tree

/-- The token tree below a place of an arena. A node has exactly the children that its token
takes. -/
inductive Holds (nodes : Array Node) : Nat → TokenTree → Prop where
  | leaf {id : Nat} {t : Token} (ht : t.role = .operand) :
    nodes[id]? = some ⟨t, none, none⟩ → Holds nodes id (.leaf t ht)
  | unary {id c : Nat} {t : Token} {s : TokenTree} (ht : t.role = .unary) :
    nodes[id]? = some ⟨t, some c, none⟩ → Holds nodes c s → Holds nodes id (.unary t ht s)
  | binary {id l r : Nat} {t : Token} {a b : TokenTree} (ht : t.role = .binary) :
    nodes[id]? = some ⟨t, some l, some r⟩ → Holds nodes l a → Holds nodes r b →
    Holds nodes id (.binary t ht a b)

variable {nodes : Array Node} {id : Nat} {s s' : TokenTree}

theorem Holds.unique (h : Holds nodes id s) (h' : Holds nodes id s') : s = s' := by
  -- the node at a place decides the token, and by its children the rule
  induction h generalizing s' with
  | leaf ht hn =>
    cases h' with
    | leaf _ hn' => cases hn.symm.trans hn'; rfl
    | unary _ hn' => cases hn.symm.trans hn'
    | binary _ hn' => cases hn.symm.trans hn'
  | unary ht hn _ ih =>
    cases h' with
    | leaf _ hn' => cases hn.symm.trans hn'
    | unary _ hn' h' => cases hn.symm.trans hn'; rw [ih h']
    | binary _ hn' => cases hn.symm.trans hn'
  | binary ht hn _ _ iha ihb =>
    cases h' with
    | leaf _ hn' => cases hn.symm.trans hn'
    | unary _ hn' => cases hn.symm.trans hn'
    | binary _ hn' ha hb => cases hn.symm.trans hn'; rw [iha ha, ihb hb]

end Tree

end ByteRegex
