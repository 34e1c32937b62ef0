import ByteRegex.Proofs.Fragment.Trim
import ByteRegex.Proofs.Pattern.Compose
import ByteRegex.Proofs.Thompson.Recursion

/-!
# The construction uses nothing but the operations

Whatever the construction makes of a pattern's tree is built by the operations on fragments
(`Nfa.built_of_parse`), so what holds of all such fragments holds of it.

No state of such a fragment is idle, so each of its edges lies on a path from the start to the
accepting state. The word on that path is, with its labels looked up in the pool of classes, a word
of the expression that the tree stands for. So the classes that labels name are all in the pool
(`Nfa.lt_size_of_mem_edges`): no account is needed of how the pool grew while the labels were made.
-/

namespace ByteRegex

open Fragment Thompson

variable {budget n : Nat} {cfg : Settings} {t : Token} {f g l r piece tail : Fragment}
  {whole whole' : Option Fragment} {classes classes' : Array ByteClass} {e : Expr} {d : Edge}
  {s : Nat}

/-! ## Combinations -/

namespace Thompson

theorem built_alternate (fastUnion : Bool) (hl : l.Built) (hr : r.Built) :
    (alternate fastUnion l r).Built := by
  unfold alternate
  split
  · next h => exact .fastUnion hl hr (Bool.and_eq_true _ _ ▸ h).2
  · split
    · next h => exact .fastUnion hr hl (Bool.and_eq_true _ _ ▸ h).2
    · exact .union hl hr

theorem built_append (hwhole : ∀ f ∈ whole, f.Built) (hp : piece.Built)
    (h : append budget whole piece = .ok g) : g.Built := by
  obtain rfl := eq_of_withinBudget h
  cases whole with
  | none => exact hp
  | some f => exact .concat (hwhole f rfl) hp

theorem built_appendCopies (hwhole : ∀ f ∈ whole, f.Built) (hp : piece.Built)
    (h : appendCopies budget piece n whole = .ok whole') : ∀ f ∈ whole', f.Built := by
  induction n generalizing whole with
  | zero =>
    obtain rfl := Except.ok.inj h
    exact hwhole
  | succ n ih =>
    obtain ⟨g, hg, h⟩ := bind_eq_ok h
    have hbuilt := built_append hwhole hp hg
    exact ih (fun f hf => Option.some.inj hf ▸ hbuilt) h

theorem built_nestOptional (hp : piece.Built) (ht : tail.Built)
    (h : nestOptional budget piece n tail = .ok g) : g.Built := by
  induction n generalizing tail with
  | zero =>
    obtain rfl := Except.ok.inj h
    exact ht
  | succ n ih =>
    obtain ⟨t, ht', h⟩ := bind_eq_ok h
    obtain rfl := eq_of_withinBudget ht'
    exact ih (.opt (.concat hp ht)) h

theorem built_repeated {min : Nat} {max : Option Nat} (hp : piece.Built)
    (h : repeated budget piece min max = .ok g) : g.Built := by
  obtain ⟨whole, hwhole, h⟩ := bind_eq_ok h
  have hbuilt := built_appendCopies (by simp) hp hwhole
  cases max with
  | none => exact built_append hbuilt (.star hp) h
  | some max =>
    dsimp only at h
    split at h
    · obtain ⟨tail, htail, h⟩ := bind_eq_ok h
      exact built_append hbuilt (built_nestOptional hp (.opt hp) htail) h
    · obtain rfl := Except.ok.inj h
      cases whole with
      | none => exact .epsilon
      | some f => exact hbuilt f rfl

end Thompson

/-! ## Trees -/

theorem Token.built_unaryFragment (hf : f.Built) (h : t.unaryFragment cfg f = .ok g) :
    g.Built := by
  unfold unaryFragment at h
  split at h
  · exact Except.ok.inj h ▸ .plus hf
  · exact Except.ok.inj h ▸ .star hf
  · exact Except.ok.inj h ▸ .opt hf
  · exact built_repeated hf h
  · cases h

theorem Token.built_binaryFragment (hl : l.Built) (hr : r.Built) :
    (t.binaryFragment cfg l r).Built := by
  unfold binaryFragment
  split
  · exact .concat hl hr
  · exact built_alternate _ hl hr

theorem TokenTree.built_of_compile {s : TokenTree}
    (h : s.compile cfg classes = .ok (f, classes')) : f.Built := by
  induction s generalizing f classes classes' with
  | leaf t ht =>
    obtain ⟨rfl, -, -⟩ := compile_leaf_eq_ok_iff.mp h
    exact .leaf _
  | unary t ht s ih =>
    obtain ⟨g, hg, hf, -⟩ := compile_unary_eq_ok_iff.mp h
    exact Token.built_unaryFragment (ih hg) hf
  | binary t ht a b iha ihb =>
    obtain ⟨l, r, classes₁, hl, hr, rfl, -⟩ := compile_binary_eq_ok_iff.mp h
    exact Token.built_binaryFragment (iha hl) (ihb hr)

namespace Nfa

variable {pattern : List Byte} {tree : Tree} {nfa : Nfa}

/-- **The fragment of a pattern's tree is built by the operations.** -/
theorem built_of_parse (htree : Tree.parse pattern = .ok tree) (h : ofTree cfg tree = .ok nfa) :
    nfa.fragment.Built := by
  by_cases hpattern : pattern = []
  · subst hpattern
    obtain rfl := Except.ok.inj htree
    obtain rfl := Except.ok.inj h
    exact .epsilon
  · obtain ⟨s, -, -, hordered⟩ := Tree.exists_writes_of_parse hpattern htree
    rw [ofTree_eq_of_ofOrdered hordered] at h
    obtain ⟨⟨f, classes⟩, hf, rfl⟩ := map_eq_ok h
    exact TokenTree.built_of_compile hf

end Nfa

/-! ## The pool of classes -/

/-- Every label of a fragment without idle states stands for a letter. -/
theorem Fragment.Realizes.exists_letter? (h : f.Realizes classes e) (ht : f.Trim)
    (hd : d ∈ f.edges s) (hne : d.label ≠ .epsilon) :
    ∃ x, d.label.letter? classes = some x := by
  -- the edge lies on a path that spells a word of the expression
  obtain ⟨w, hw⟩ := ht.reached (lt_size_of_mem_edges hd)
  obtain ⟨v, hv⟩ := ht.finishes (h.wellFormed.target_lt hd)
  have hword : w ++ dropEpsilons [d.label] ++ v ∈ f.language := (hw.step hd).trans hv
  have hmap : (w ++ dropEpsilons [d.label] ++ v).map (Label.letter? classes) ∈
      e.language.map some := h.language ▸ ⟨_, hword, rfl⟩
  obtain ⟨u, -, hu⟩ := hmap
  have hmem : d.label ∈ w ++ dropEpsilons [d.label] ++ v := by
    simp [dropEpsilons, hne]
  have hletter : d.label.letter? classes ∈ u.map some := by
    rw [show u.map some = _ from hu]
    exact List.mem_map_of_mem hmem
  obtain ⟨x, -, hx⟩ := List.mem_map.mp hletter
  exact ⟨x, hx.symm⟩

namespace Nfa

variable {pattern : List Byte} {tree : Tree} {nfa : Nfa} {id : Nat}

/-- **The classes that labels name are in the pool.** -/
theorem lt_size_of_mem_edges (htree : Tree.parse pattern = .ok tree)
    (h : ofTree cfg tree = .ok nfa) (hd : d ∈ nfa.fragment.edges s)
    (hid : d.label = .classRef id) : id < nfa.classes.size := by
  obtain ⟨e, -, hrealizes⟩ := realizes_ofTree (Tree.root_lt_of_parse htree) h
  obtain ⟨x, hx⟩ := hrealizes.exists_letter? (built_of_parse htree h).trim hd
    (by rw [hid]; exact Label.noConfusion)
  rw [hid] at hx
  obtain ⟨c, hc, -⟩ := Option.map_eq_some_iff.mp hx
  exact (Array.getElem?_eq_some_iff.mp hc).1

end Nfa

end ByteRegex
