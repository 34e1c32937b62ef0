import ByteRegex.Proofs.Pattern.Grammar
import ByteRegex.Proofs.Pattern.Walk

/-!
# The places of a tree

A token tree lies below a place of an arena at certain places, which are listed children first
(`Tree.Laid`). A walk over the arena from there lists the same places, whether it recurses
(`Tree.Laid.postorder_eq`) or keeps a stack (`Tree.Laid.leads`).
-/

namespace ByteRegex.Tree

/-- The token tree below a place of an arena, and the places of its nodes, children first. -/
inductive Laid (nodes : Array Node) : Nat → TokenTree → List Nat → Prop where
  | leaf {id : Nat} {t : Token} (ht : t.role = .operand) :
    nodes[id]? = some ⟨t, none, none⟩ → Laid nodes id (.leaf t ht) [id]
  | unary {id c : Nat} {t : Token} {s : TokenTree} {ids : List Nat} (ht : t.role = .unary) :
    nodes[id]? = some ⟨t, some c, none⟩ → Laid nodes c s ids →
    Laid nodes id (.unary t ht s) (ids ++ [id])
  | binary {id l r : Nat} {t : Token} {a b : TokenTree} {is js : List Nat} (ht : t.role = .binary) :
    nodes[id]? = some ⟨t, some l, some r⟩ → Laid nodes l a is → Laid nodes r b js →
    Laid nodes id (.binary t ht a b) (is ++ js ++ [id])

namespace Laid

variable {nodes more : Array Node} {id : Nat} {s : TokenTree} {ids : List Nat}

theorem holds (h : Laid nodes id s ids) : Holds nodes id s := by
  induction h with
  | leaf ht hn => exact .leaf ht hn
  | unary ht hn _ ih => exact .unary ht hn ih
  | binary ht hn _ _ iha ihb => exact .binary ht hn iha ihb

/-- An arena that grows keeps its trees where they are. -/
theorem append (h : Laid nodes id s ids) : Laid (nodes ++ more) id s ids := by
  have grow : ∀ {i : Nat} {n : Node}, nodes[i]? = some n → (nodes ++ more)[i]? = some n := by
    intro i n hn
    rw [Array.getElem?_append_left (Array.getElem?_eq_some_iff.mp hn).1]
    exact hn
  induction h with
  | leaf ht hn => exact .leaf ht (grow hn)
  | unary ht hn _ ih => exact .unary ht (grow hn) ih
  | binary ht hn _ _ iha ihb => exact .binary ht (grow hn) iha ihb

theorem root_mem (h : Laid nodes id s ids) : id ∈ ids := by
  cases h <;> simp

theorem lt_size (h : Laid nodes id s ids) : ∀ i ∈ ids, i < nodes.size := by
  have bound : ∀ {i : Nat} {n : Node}, nodes[i]? = some n → i < nodes.size :=
    fun hn => (Array.getElem?_eq_some_iff.mp hn).1
  induction h with
  | leaf ht hn => simpa using bound hn
  | unary ht hn _ ih =>
    intro i hi
    rcases List.mem_append.mp hi with hi | hi
    · exact ih i hi
    · exact List.mem_singleton.mp hi ▸ bound hn
  | binary ht hn _ _ iha ihb =>
    intro i hi
    rcases List.mem_append.mp hi with hi | hi
    · exact (List.mem_append.mp hi).elim (iha i) (ihb i)
    · exact List.mem_singleton.mp hi ▸ bound hn

theorem lies_below (h : Laid nodes id s ids) : Below nodes (some id) ids := by
  induction h with
  | leaf ht hn => exact .node hn .absent .absent
  | @unary id c t s ids ht hn _ ih =>
    rw [← List.append_nil ids]
    exact .node hn ih .absent
  | binary ht hn _ _ iha ihb => exact .node hn iha ihb

variable {tree : Tree}

theorem below_root (hroot : tree.root = some id) (h : Laid tree.nodes id s ids) :
    Below tree.nodes tree.root ids :=
  hroot ▸ h.lies_below

/-- **The walk from the root lists the places of the tree.** -/
theorem postorder_eq (hroot : tree.root = some id) (h : Laid tree.nodes id s ids) :
    tree.postorder = ids :=
  (h.below_root hroot).postorder_eq

/-- **The loop with a stack ends, and lists the same places.** -/
theorem leads (hroot : tree.root = some id) (h : Laid tree.nodes id s ids) :
    StackWalk.Leads tree.nodes (.start tree.root) ⟨[], tree.postorder⟩ := by
  rw [h.postorder_eq hroot]
  exact StackWalk.leads_start_iff.mpr (h.below_root hroot)

end Laid

end ByteRegex.Tree
