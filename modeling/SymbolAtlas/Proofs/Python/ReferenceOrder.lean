import SymbolAtlas.Proofs.Python.SourceNames
import SymbolAtlas.Proofs.Python.VisitOrder
import SymbolAtlas.Proofs.Text.ReadingOrder

/-! # References in reading order

What a tree reads are some of its names, in the order of the tree, and each of them once. The names
of a source's tree are words of the source, one behind the other, so its references stand in
reading order, and each is there what the source says at its place.
-/

namespace SymbolAtlas.Python

/-! ## References of a tree -/

namespace Tree.IsFaithful

variable {source : List Char} {t : Tree} {r : Reference}

theorem references_sublist (h : t.IsFaithful source) :
    t.references.Sublist (t.names.map Tree.reference) := by
  rw [h.references_eq]
  exact t.readIn_sublist .read

/-- Every reference in a tree is a name of the tree. -/
theorem exists_of_mem_references (h : t.IsFaithful source) (hr : r ∈ t.references) :
    ∃ n ∈ t.nodes, n.kind = .identifier ∧ r = n.reference := by
  obtain ⟨n, hn, rfl⟩ := List.mem_map.mp (h.references_sublist.subset hr)
  obtain ⟨hn, hkind⟩ := mem_names.mp hn
  exact ⟨n, hn, hkind, rfl⟩

/-- Every reference in a tree is a whole word of the source. -/
theorem exists_word_of_mem_references (h : t.IsFaithful source) (hr : r ∈ t.references) :
    ∃ n : Tree, n.IsWord source ∧ r = n.reference := by
  obtain ⟨n, hn, hkind, rfl⟩ := h.exists_of_mem_references hr
  exact ⟨n, (h n hn).isWord hkind, rfl⟩

end Tree.IsFaithful

/-! ## Order -/

namespace Tree

variable {source : List Char} {t : Tree}

/-- The source says a word where the word stands. -/
theorem IsWord.exists_eq_append (h : t.IsWord source) :
    ∃ after, source = source.take t.start.offset ++ t.chars ++ after := by
  refine ⟨source.drop (t.start.offset + (t.stop.offset - t.start.offset)), ?_⟩
  rw [chars, h.start_isIn.slice_eq, ← List.take_add, List.take_append_drop]

/-- The names of a tree come in reading order if there is an offset behind them all. -/
theorem IsFaithful.names_pairwise (h : t.IsFaithful source) (hpast : t.past 0 ≠ ⊤) :
    t.names.Pairwise fun n m => n.position.before m.position = true := by
  have hword : ∀ n ∈ t.names, n.IsWord source := fun n hn =>
    (h n (mem_names.mp hn).1).isWord (mem_names.mp hn).2
  obtain ⟨-, hpairwise⟩ :=
    pairwise_of_foldl_behind (fun n hn => (hword n hn).start_lt_stop.le) hpast
  refine hpairwise.imp_of_mem fun {n m} hn hm hle => ?_
  exact (hword n hn).start_isIn.before_of_lt (hword m hm).start_isIn
    ((hword n hn).start_lt_stop.trans_le hle)

/-- The references in a tree come in reading order, so none comes twice. Each is a name of the tree,
a leaf, and the source says this name at the reference's place. -/
theorem IsFaithful.references_ordered (h : t.IsFaithful source) (hpast : t.past 0 ≠ ⊤) :
    t.references.Pairwise (fun r r' => r.position.before r'.position = true) ∧
      t.references.Nodup ∧
      ∀ r ∈ t.references,
        (∃ n ∈ t.nodes, n.kind = .identifier ∧ n.children = [] ∧ r = n.reference) ∧
        ∃ before after, source = before ++ r.name.toList ++ after ∧
          r.position = Position.start.after before := by
  have hpairwise : t.references.Pairwise fun r r' => r.position.before r'.position = true :=
    (List.pairwise_map.mpr (h.names_pairwise hpast)).sublist h.references_sublist
  refine ⟨hpairwise, hpairwise.imp fun hbefore heq => ?_, fun r hr => ?_⟩
  · rw [heq, Position.before_iff] at hbefore
    omega
  · obtain ⟨n, hn, hkind, rfl⟩ := h.exists_of_mem_references hr
    have hword := (h n hn).isWord hkind
    obtain ⟨after, hsource⟩ := hword.exists_eq_append
    refine ⟨⟨n, hn, hkind, (h n hn).hasParts.token (.inl hkind), rfl⟩, _, after, ?_,
      hword.start_isIn.position_eq⟩
    rw [reference, text, String.toList_ofList]
    exact hsource

end Tree

/-- The references in the tree of a source come in reading order, so none comes twice. Each is a
name of the tree, a leaf, and the source says this name at the reference's place. -/
theorem references_inOrder {content : String} {tree : Tree}
    (htree : syntaxTree content = .ok tree) :
    tree.references.Pairwise (fun r r' => r.position.before r'.position = true) ∧
      tree.references.Nodup ∧
      ∀ r ∈ tree.references,
        (∃ n ∈ tree.nodes, n.kind = .identifier ∧ n.children = [] ∧ r = n.reference) ∧
        ∃ before after, content.toList = before ++ r.name.toList ++ after ∧
          r.position = Position.start.after before :=
  have ⟨hfaithful, hpast⟩ := syntaxTree_reads htree
  hfaithful.references_ordered hpast

/-- A source has a tree with a property if reading it gives one. -/
theorem exists_syntaxTree {content : String} {p : Tree → Prop} [DecidablePred p]
    (h : (syntaxTree content).toOption.any (fun t => decide (p t)) = true) :
    ∃ tree, syntaxTree content = .ok tree ∧ p tree := by
  cases htree : syntaxTree content with
  | error problem =>
    rw [htree] at h
    cases h
  | ok tree =>
    rw [htree] at h
    exact ⟨tree, rfl, of_decide_eq_true h⟩

/-- Two names are read before what is assigned to a place in one of them, and the name of an
argument is not. -/
theorem references_inOrder_ofSubscript :
    ∃ tree, syntaxTree "x[i] = f(a, k=b)" = .ok tree ∧
      tree.references = [⟨"x", ⟨1, 1⟩⟩, ⟨"i", ⟨1, 3⟩⟩, ⟨"f", ⟨1, 8⟩⟩, ⟨"a", ⟨1, 10⟩⟩,
        ⟨"b", ⟨1, 15⟩⟩] ∧
      tree.references.Pairwise (fun r r' => r.position.before r'.position = true) ∧
      ∀ r ∈ tree.references, ∃ n ∈ tree.nodes, n.kind = .identifier ∧ r = n.reference := by
  obtain ⟨tree, htree, hread⟩ := @exists_syntaxTree "x[i] = f(a, k=b)"
    (fun tree => tree.references = [⟨"x", ⟨1, 1⟩⟩, ⟨"i", ⟨1, 3⟩⟩, ⟨"f", ⟨1, 8⟩⟩, ⟨"a", ⟨1, 10⟩⟩,
      ⟨"b", ⟨1, 15⟩⟩]) _ (by decide +kernel)
  obtain ⟨hpairwise, -, hnames⟩ := references_inOrder htree
  refine ⟨tree, htree, hread, hpairwise, fun r hr => ?_⟩
  obtain ⟨⟨n, hn, hkind, -, hr⟩, -⟩ := hnames r hr
  exact ⟨n, hn, hkind, hr⟩

end SymbolAtlas.Python
