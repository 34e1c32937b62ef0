import ByteRegex.Pattern.Tree
import Mathlib.Data.Finset.Card
import Mathlib.Logic.Relation

/-!
# Walks over an arena

The places below a child are listed children first, in one of two ways. `Tree.walk` recurses, as
deep as the arena is large. A loop keeps a stack instead (`Tree.StackWalk`): a place that is taken
from it goes back with a mark, under its children, and is listed when it comes up again.

`Tree.Below` says which places there are. The loop ends exactly if there are such places, and has
then listed them (`Tree.StackWalk.leads_start_iff`). No place lies below itself in that case, so the
recursion is deep enough, and lists the same ones (`Tree.postorder_of_leads`). In an arena with a
cycle the loop goes on for ever.
-/

namespace ByteRegex.Tree

/-- The places below a child and its own, children first. A place with several parents is listed
for each of them. -/
inductive Below (nodes : Array Node) : Option Nat → List Nat → Prop where
  | absent : Below nodes none []
  | node {id : Nat} {n : Node} {is js : List Nat} :
    nodes[id]? = some n → Below nodes n.left is → Below nodes n.right js →
    Below nodes (some id) (is ++ js ++ [id])

variable {nodes : Array Node} {c : Option Nat} {id : Nat} {ids order rest : List Nat}

theorem Below.unique {ids' : List Nat} (h : Below nodes c ids) (h' : Below nodes c ids') :
    ids = ids' := by
  induction h generalizing ids' with
  | absent =>
    cases h'
    rfl
  | node hn _ _ ihl ihr =>
    cases h' with
    | node hn' hl hr =>
      cases hn.symm.trans hn'
      rw [ihl hl, ihr hr]

/-! ## The loop with a stack -/

/-- What is still to be visited, and what has been listed. A marked place has its children
behind it. -/
structure StackWalk where
  stack : List (Nat × Bool)
  order : List Nat

namespace StackWalk

/-- The loop before its first iteration. -/
def start (root : Option Nat) : StackWalk := ⟨root.toList.map (·, false), []⟩

/-- One iteration of the loop. There is none once the stack is empty, nor at a place that the arena
lacks. -/
def next (nodes : Array Node) : StackWalk → Option StackWalk
  | ⟨[], _⟩ => none
  | ⟨(id, true) :: stack, order⟩ => some ⟨stack, order ++ [id]⟩
  | ⟨(id, false) :: stack, order⟩ => nodes[id]?.map fun n =>
    ⟨n.left.toList.map (·, false) ++ (n.right.toList.map (·, false) ++ (id, true) :: stack), order⟩

/-- Some iterations lead from one state of the loop to another. -/
def Leads (nodes : Array Node) : StackWalk → StackWalk → Prop :=
  Relation.ReflTransGen fun v w => v.next nodes = some w

/-- **A child is taken from the stack, and the places below it are listed.** -/
theorem leads_of_below (h : Below nodes c ids) (stack : List (Nat × Bool)) (order : List Nat) :
    Leads nodes ⟨c.toList.map (·, false) ++ stack, order⟩ ⟨stack, order ++ ids⟩ := by
  induction h generalizing stack order with
  | absent =>
    rw [List.append_nil]
    exact .refl
  | @node id n is js hn _ _ ihl ihr =>
    have hfirst : next nodes ⟨(id, false) :: stack, order⟩ = some ⟨n.left.toList.map (·, false) ++
        (n.right.toList.map (·, false) ++ (id, true) :: stack), order⟩ := by
      rw [next, hn, Option.map_some]
    have hlast : next nodes ⟨(id, true) :: stack, order ++ is ++ js⟩ =
        some ⟨stack, order ++ (is ++ js ++ [id])⟩ := by
      rw [next, List.append_assoc, List.append_assoc, List.append_assoc]
    exact .head hfirst ((ihl _ _).trans ((ihr _ _).tail hlast))

/-- What a stack stands for: marked places by themselves, the others with all that is below. -/
inductive Pending (nodes : Array Node) : List (Nat × Bool) → List Nat → Prop where
  | nil : Pending nodes [] []
  | marked {id : Nat} {stack : List (Nat × Bool)} {rest : List Nat} :
    Pending nodes stack rest → Pending nodes ((id, true) :: stack) (id :: rest)
  | child {id : Nat} {stack : List (Nat × Bool)} {ids rest : List Nat} :
    Below nodes (some id) ids → Pending nodes stack rest →
    Pending nodes ((id, false) :: stack) (ids ++ rest)

theorem Pending.exists_below {stack : List (Nat × Bool)}
    (h : Pending nodes (c.toList.map (·, false) ++ stack) rest) :
    ∃ ids rest', Below nodes c ids ∧ Pending nodes stack rest' ∧ rest = ids ++ rest' := by
  cases c with
  | none => exact ⟨[], rest, .absent, h, rfl⟩
  | some id =>
    cases h with
    | child hids hrest => exact ⟨_, _, hids, hrest, rfl⟩

/-- **A loop that ends has listed what was on its stack.** -/
theorem pending_of_leads {v : StackWalk} (h : Leads nodes v ⟨[], order⟩) :
    ∃ rest, Pending nodes v.stack rest ∧ order = v.order ++ rest := by
  induction h using Relation.ReflTransGen.head_induction_on with
  | refl => exact ⟨[], .nil, (List.append_nil _).symm⟩
  | @head v w hstep _ ih =>
    obtain ⟨stack, listed⟩ := v
    obtain ⟨rest, hrest, horder⟩ := ih
    match stack, hstep with
    | (id, true) :: stack, hstep =>
      cases hstep
      exact ⟨id :: rest, .marked hrest, by simp [horder]⟩
    | (id, false) :: stack, hstep =>
      obtain ⟨n, hn, rfl⟩ := Option.map_eq_some_iff.mp hstep
      obtain ⟨is, rest', hl, hrest', rfl⟩ := Pending.exists_below hrest
      obtain ⟨js, rest'', hr, hmarked, rfl⟩ := hrest'.exists_below
      cases hmarked with
      | @marked _ _ rest hstack =>
        exact ⟨is ++ js ++ [id] ++ rest, .child (.node hn hl hr) hstack, by simp [horder]⟩

/-- **The loop ends exactly if there are places to list**, and has listed them. -/
theorem leads_start_iff :
    Leads nodes (start c) ⟨[], order⟩ ↔ Below nodes c order := by
  constructor
  · intro h
    obtain ⟨rest, hrest, horder⟩ := pending_of_leads h
    have hpending : Pending nodes (c.toList.map (·, false) ++ []) rest := by
      rwa [List.append_nil]
    obtain ⟨ids, rest, hids, hnil, rfl⟩ := hpending.exists_below
    cases hnil
    simpa [horder, start] using hids
  · intro h
    have hleads := leads_of_below h [] []
    rwa [List.append_nil] at hleads

end StackWalk

/-! ## The recursion -/

/-- The places below a child, in front of `rest`. -/
def walkChild (nodes : Array Node) (depth : Nat) (c : Option Nat) (rest : List Nat) : List Nat :=
  match c with
  | some id => walk nodes depth id rest
  | none => rest

theorem walk_succ {n : Node} (hn : nodes[id]? = some n) (depth : Nat) (rest : List Nat) :
    walk nodes (depth + 1) id rest =
      walkChild nodes depth n.left (walkChild nodes depth n.right (id :: rest)) := by
  rw [walk, hn]
  rfl

/-- The recursion lists the places below a child, if those above it lie above more of them and the
depth has room for all others. -/
theorem Below.walkChild_eq {above : Finset Nat} (h : Below nodes c ids)
    (habove : ∀ i ∈ above, i < nodes.size ∧
      ∀ is, Below nodes (some i) is → ids.length < is.length) (rest : List Nat) :
    walkChild nodes (nodes.size - above.card) c rest = ids ++ rest := by
  induction h generalizing above rest with
  | absent => rfl
  | @node id n is js hn hl hr ihl ihr =>
    have hsize : id < nodes.size := (Array.getElem?_eq_some_iff.mp hn).1
    have hbelow : Below nodes (some id) (is ++ js ++ [id]) := .node hn hl hr
    -- a place is not above itself, because as many places lie below it as below it
    have hnew : id ∉ above := fun hmem => Nat.lt_irrefl _ ((habove id hmem).2 _ hbelow)
    have hsub : insert id above ⊆ Finset.range nodes.size := by
      intro i hi
      rcases Finset.mem_insert.mp hi with rfl | hi
      · exact Finset.mem_range.mpr hsize
      · exact Finset.mem_range.mpr (habove i hi).1
    have hcard := Finset.card_le_card hsub
    rw [Finset.card_insert_of_notMem hnew, Finset.card_range] at hcard
    have hdepth : nodes.size - above.card = nodes.size - (insert id above).card + 1 := by
      rw [Finset.card_insert_of_notMem hnew]
      omega
    have hchild : ∀ ks : List Nat, ks.length ≤ is.length + js.length → ∀ i ∈ insert id above,
        i < nodes.size ∧ ∀ ids, Below nodes (some i) ids → ks.length < ids.length := by
      intro ks hks i hi
      rcases Finset.mem_insert.mp hi with rfl | hi
      · refine ⟨hsize, fun ids hids => ?_⟩
        rw [← hbelow.unique hids]
        simp
        omega
      · refine ⟨(habove i hi).1, fun ids hids => ?_⟩
        have hlt := (habove i hi).2 ids hids
        simp at hlt
        omega
    rw [walkChild, hdepth, walk_succ hn, ihr (hchild js (by omega)), ihl (hchild is (by omega))]
    simp

/-- **The recursion lists the places below the root**, if there are any to list. -/
theorem Below.postorder_eq {tree : Tree} (h : Below tree.nodes tree.root order) :
    tree.postorder = order := by
  have hwalk : walkChild tree.nodes (tree.nodes.size - (∅ : Finset Nat).card) tree.root [] =
      order ++ [] := h.walkChild_eq (fun i hi => absurd hi (Finset.notMem_empty i)) []
  rw [List.append_nil] at hwalk
  exact hwalk

/-- **The loop and the recursion list the same places**, in any arena in which the loop ends. -/
theorem postorder_of_leads {tree : Tree}
    (h : StackWalk.Leads tree.nodes (.start tree.root) ⟨[], order⟩) : tree.postorder = order :=
  (StackWalk.leads_start_iff.mp h).postorder_eq

end ByteRegex.Tree
