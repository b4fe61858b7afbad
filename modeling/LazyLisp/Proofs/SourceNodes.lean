import LazyLisp.Proofs.Layout
import LazyLisp.Proofs.Spelling

/-!
# The source tree mirrors the text

Each list of a program has a node, and the nodes stand in the order of the opening parentheses. A
node knows the list around its own, the symbol at its head and the bytes that the list takes in the
text. The way from a list to its bytes has two stages: `Placed` says which of the program's tokens
the list was read from, and `StandsAt` which part of the text they are.
-/

namespace LazyLisp

namespace Value

/-- The node of a list. -/
def origin? : Value → Option NodeId
  | .list _ _ origin => origin
  | _ => none

theorem toList_originsOntoAll {vs : List Value}
    (each : ∀ v ∈ vs, ∀ found, (originsOnto found v).toList = found.toList ++ v.origins)
    (found : Array (Option NodeId)) :
    (originsOntoAll found vs).toList = found.toList ++ vs.flatMap origins := by
  induction vs generalizing found with
  | nil => simp [originsOntoAll]
  | cons v vs ih =>
    obtain ⟨first, rest⟩ := List.forall_mem_cons.1 each
    rw [originsOntoAll, ih rest, first, List.flatMap_cons, List.append_assoc]

theorem toList_originsOnto (v : Value) (found : Array (Option NodeId)) :
    (originsOnto found v).toList = found.toList ++ v.origins := by
  induction v generalizing found with
  | list items tag origin ih =>
    have here : origins (.list items tag origin) = origin :: items.flatMap origins := by
      rw [origins, originsOnto, toList_originsOntoAll ih]
      rfl
    rw [originsOnto, toList_originsOntoAll ih, here]
    simp
  | _ => simp [originsOnto, origins]

theorem origins_list (items : List Value) (tag : ListTag) (origin : Option NodeId) :
    origins (.list items tag origin) = origin :: items.flatMap origins := by
  rw [origins, originsOnto, toList_originsOntoAll fun v _ => toList_originsOnto v]
  rfl

end Value

/-- A value in a program with the lists around it: each lies directly in the next one, and the last
is the program. -/
inductive Nested (program : Value) : List Value → Prop
  | program : Nested program [program]
  | item {v : Value} {items : List Value} {tag : ListTag} {origin : Option NodeId}
    {around : List Value} : Nested program (.list items tag origin :: around) → v ∈ items →
      Nested program (v :: .list items tag origin :: around)

namespace Reader

/-! ## Lists and their tokens -/

variable {t : SourceTree} {parent first next : Nat} {tokens : List Token} {values : List Value}

/-- The lists read have the nodes from `first` up to `next`, in order. -/
theorem Recorded.origins (h : Recorded t parent first next tokens values) :
    values.flatMap Value.origins =
      (List.range' first (next - first)).map fun k => some ⟨t.id, k⟩ := by
  induction h with
  | nil => simp
  | @atom _ _ _ _ v _ _ _ read _ ih =>
    have none : v.origins = [] := by
      cases (isCode_of_atom read).1 with
      | list _ => cases (isCode_of_atom read).2
      | _ => rfl
    rw [List.flatMap_cons, none, ih, List.nil_append]
  | @list parent first middle next _ _ _ _ items values _ _ _ inner rest ihInner ihRest =>
    have le := inner.le
    have le' := rest.le
    have split : List.range' first (next - first) =
        first :: (List.range' (first + 1) (middle - (first + 1)) ++
          List.range' middle (next - middle)) := by
      have whole : next - first = (next - (first + 1)) + 1 := by omega
      have parts : next - (first + 1) = (middle - (first + 1)) + (next - middle) := by omega
      have start : first + 1 + (middle - (first + 1)) = middle := by omega
      rw [whole, List.range'_succ, parts, ← List.range'_append_1, start]
    rw [List.flatMap_cons, Value.origins_list, ihInner, ihRest, split]
    simp

/-- Among the tokens, `o`, `inner` and `c` are the list of index `k`; it has these items and lies in
the list of index `parent`. The first list that the tokens open has the index `first`. -/
structure Placed (t : SourceTree) (first : Nat) (tokens before : List Token) (o : Token)
    (inner : List Token) (c : Token) (after : List Token) (parent k : Nat) (items : List Value) :
    Prop where
  split : tokens = before ++ o :: (inner ++ c :: after)
  opening : o.kind = .opening
  closing : c.kind = .closing
  rank : first + openings before = k
  node : t.nodes[k]? =
    some ⟨⟨o.span.start, c.span.stop⟩, some ⟨t.id, parent⟩, items.head?.bind Value.symbol?⟩
  recorded : ∃ next, Recorded t k (k + 1) next inner items

/-- A list among the values read has its place. -/
theorem Recorded.exists_placed (h : Recorded t parent first next tokens values)
    {items : List Value} {tag : ListTag} {origin : Option NodeId}
    (member : .list items tag origin ∈ values) :
    tag = .code ∧ ∃ k, origin = some ⟨t.id, k⟩ ∧ ∃ before o inner c after,
      Placed t first tokens before o inner c after parent k items := by
  induction h with
  | nil => simp at member
  | @atom _ _ _ tok v _ _ kind read _ ih =>
    rcases List.mem_cons.1 member with rfl | later
    · cases (isCode_of_atom read).2
    · obtain ⟨code, k, node, before, o, inner, c, after, placed⟩ := ih later
      refine ⟨code, k, node, tok :: before, o, inner, c, after, ?_⟩
      exact { placed with
        split := by rw [placed.split, List.cons_append]
        rank := by simpa [kind] using placed.rank }
  | @list parent first middle next o c inner rest items' values ho hc node inside others _ ihRest =>
    rcases List.mem_cons.1 member with same | later
    · cases same
      refine ⟨rfl, first, rfl, [], o, inner, c, rest, ?_⟩
      exact ⟨rfl, ho, hc, rfl, node, middle, inside⟩
    · obtain ⟨code, k, origin, before, o', inner', c', after, placed⟩ := ihRest later
      have counted := inside.openings_eq
      refine ⟨code, k, origin, o :: (inner ++ c :: before), o', inner', c', after, ?_⟩
      exact { placed with
        split := by rw [placed.split]; simp
        rank := by
          have rank := placed.rank
          simp only [openings_cons, openings_append, ho, hc, if_true, reduceCtorEq, if_false]
          omega }

/-- The place of a list inside a list that has its place. -/
theorem Placed.inside {before inner after before' inner' after' : List Token} {o c o' c' : Token}
    {k k' : Nat} {items items' : List Value}
    (h : Placed t first tokens before o inner c after parent k items)
    (h' : Placed t (k + 1) inner before' o' inner' c' after' k k' items') :
    Placed t first tokens (before ++ o :: before') o' inner' c' (after' ++ c :: after) k k'
      items' := by
  refine { h' with split := ?_, rank := ?_ }
  · rw [h.split, h'.split]
    simp
  · have outer := h.rank
    have rank := h'.rank
    simp only [openings_append, openings_cons, h.opening, if_true]
    omega

/-- Every list inside the program has its place, and lies in the list that its node names. -/
theorem Nested.exists_placed {root : Nat} {forms : List Value}
    (h : Recorded t root (root + 1) next tokens forms) {path : List Value}
    (nested : Nested (.list forms .code (some ⟨t.id, root⟩)) path) :
    ∀ {items tag origin outer around}, path = .list items tag origin :: outer :: around →
      tag = .code ∧ ∃ k parent, origin = some ⟨t.id, k⟩ ∧ outer.origin? = some ⟨t.id, parent⟩ ∧
        ∃ before o inner c after,
          Placed t (root + 1) tokens before o inner c after parent k items := by
  induction nested with
  | program =>
    intro items tag origin outer around same
    cases same
  | @item v forms' tag' origin' around' outside member ih =>
    intro items tag origin outer around same
    cases same
    cases outside with
    | program =>
      obtain ⟨code, k, node, placed⟩ := h.exists_placed member
      exact ⟨code, k, root, node, rfl, placed⟩
    | item _ _ =>
      obtain ⟨-, k, _, node, -, before, o, inner, c, after, placed⟩ := ih rfl
      obtain ⟨_, recorded⟩ := placed.recorded
      obtain ⟨code, k', node', before', o', inner', c', after', placed'⟩ :=
        recorded.exists_placed member
      exact ⟨code, k', k, node', node, _, _, _, _, _, placed.inside placed'⟩

/-! ## Tokens and the text -/

/-- The bytes of `span` are the text of the list `v`: they begin with a parenthesis and end with the
one that closes it, and read alone they are the one form `v`, origins apart. Before them `rank`
parentheses are opened. -/
def StandsAt (source : String) (v : Value) (rank : Nat) (span : Span) : Prop :=
  ∃ before inner after : String, source = before ++ ("(" ++ inner ++ ")") ++ after ∧
    Balanced (· == '(') (· == ')') inner.toList ∧
    span = ⟨before.utf8ByteSize, (before ++ ("(" ++ inner ++ ")")).utf8ByteSize⟩ ∧
    before.toList.countP (· == '(') = rank ∧
    ∀ t, ∃ form t',
      readProgram ("(" ++ inner ++ ")") t = .ok (.list [form] .code (some t.nextId)) t' ∧
        form.bare = v.bare

/-- Tokens that say one form are read as that form. -/
theorem exists_readTokens_of_pieces {v : Value} (code : v.IsCode) (written : Spells tokens v.pieces)
    (stop : Nat) (t : SourceTree) :
    ∃ form t', readTokens tokens stop t = .ok (.list [form] .code (some t.nextId)) t' ∧
      form.bare = v.bare := by
  have all : Spells tokens (Value.piecesAll [v]) := by
    rwa [Value.piecesAll, Value.piecesAll, List.append_nil]
  obtain ⟨items, t', read, alike⟩ :=
    exists_readTokens_of_spells (List.forall_mem_singleton.2 code) all stop t
  obtain ⟨form, rfl⟩ : ∃ form, items = [form] := by
    have one : items.length = 1 := by simpa using congrArg List.length alike
    exact List.length_eq_one_iff.1 one
  exact ⟨form, t', read, by simpa using alike⟩

/-- Characters that are laid out as the tokens of one list are read as that list. -/
theorem exists_readProgram_of_layout {offset : Nat} {text : String} {v : Value} (code : v.IsCode)
    (layout : Layout offset text.toList tokens) (written : Spells tokens v.pieces)
    (t : SourceTree) :
    ∃ form t', readProgram text t = .ok (.list [form] .code (some t.nextId)) t' ∧
      form.bare = v.bare := by
  obtain ⟨tokens', elsewhere, same⟩ := layout.moved 0
  have said : Spells (tokenize text) v.pieces := by
    rw [layout_iff_tokenize.1 elsewhere]
    exact written.congr same
  exact exists_readTokens_of_pieces code said text.utf8ByteSize t

/-- A list stands in the text where its tokens do. -/
theorem Placed.standsAt {source : String} {before inner after : List Token} {o c : Token} {k : Nat}
    {items : List Value}
    (h : Placed t first (tokenize source) before o inner c after parent k items)
    (origin : Option NodeId) :
    StandsAt source (.list items .code origin) (openings before)
      ⟨o.span.start, c.span.stop⟩ := by
  have layout : Layout 0 source.toList (before ++ o :: (inner ++ c :: after)) := by
    rw [← h.split]
    exact layout_iff_tokenize.2 rfl
  have opening : o.kind.bracket? = some '(' := by rw [h.opening]; rfl
  have closing : c.kind.bracket? = some ')' := by rw [h.closing]; rfl
  obtain ⟨x, rest, text, hx, oSpan, hrest⟩ := layout.split opening
  obtain ⟨y, z, rfl, hy, cSpan, hz⟩ := hrest.split closing
  obtain ⟨next, recorded⟩ := h.recorded
  refine ⟨String.ofList x, String.ofList y, String.ofList z, ?_, ?_, ?_, ?_, ?_⟩
  · apply String.toList_injective
    simp [text]
  · rw [String.toList_ofList]
    exact hy.balanced recorded.balanced
  · have size : (String.ofList x ++ ("(" ++ String.ofList y ++ ")")).utf8ByteSize =
        bytes x + 1 + bytes y + 1 := by
      simp only [String.utf8ByteSize_append, bytes, Nat.add_assoc]
      rfl
    rw [oSpan, cSpan, size, Nat.zero_add]
    rfl
  · rw [String.toList_ofList]
    exact (Layout.counts_of_brackets hx.brackets).1
  · have slice : ("(" ++ String.ofList y ++ ")").toList = '(' :: (y ++ [')']) := by simp
    have whole := hy.wrap
    rw [← slice] at whole
    refine exists_readProgram_of_layout (.list recorded.isCode) whole ?_
    exact .cons rfl (recorded.spells.append (.cons rfl .nil))

/-! ## Sources read one after the other -/

/-- The tree after a source was read, or could not be read. -/
def treeAfter (t : SourceTree) (source : String) : SourceTree :=
  match readProgram source t with
  | .ok _ t' => t'
  | .error _ t' => t'

/-- A tree that sources were read into, one after the other, and nothing else was done to. -/
inductive Built : SourceTree → Prop
  | new (id : UInt32) : Built { id }
  | read {t : SourceTree} (source : String) : Built t → Built (treeAfter t source)

/-- The list around each list is an earlier one of the same tree. -/
def Ordered (t : SourceTree) : Prop :=
  ∀ (k : Nat) (n : Node) (p : NodeId), t.nodes[k]? = some n → n.parent = some p →
    p.tree = t.id ∧ p.index < k

theorem accepted_of_readTokens {stop : Nat} {t t' : SourceTree} {program : Value}
    (read : readTokens tokens stop t = .ok program t') : Accepted tokens stop t program t' := by
  rcases readTokens_cases tokens stop t with ⟨_, _, again, accepted⟩ | ⟨d, _, again, -⟩
  · obtain ⟨rfl, rfl⟩ := EStateM.Result.ok.inj (read.symm.trans again)
    exact accepted
  · rw [read] at again
    cases again

theorem accepted_of_readProgram {source : String} {t t' : SourceTree} {program : Value}
    (read : readProgram source t = .ok program t') :
    Accepted (tokenize source) source.utf8ByteSize t program t' :=
  accepted_of_readTokens read

theorem grown_treeAfter (t : SourceTree) (source : String) :
    Grown (rooted (tokenize source) source.utf8ByteSize t) (treeAfter t source) := by
  unfold treeAfter readProgram
  rcases readTokens_cases (tokenize source) source.utf8ByteSize t with
    ⟨program, t', read, accepted⟩ | ⟨d, t', read, refused⟩
  · rw [read]
    exact accepted.grown
  · rw [read]
    exact refused.grown

theorem Grown.nodes_old {stop : Nat} {t t' : SourceTree} (h : Grown (rooted tokens stop t) t')
    {k : Nat} (lt : k < t.size) : t'.nodes[k]? = t.nodes[k]? := by
  have size : (rooted tokens stop t).size = t.size + 1 := SourceTree.size_push ..
  rw [h.old k (by omega), rooted, SourceTree.nodes_push, if_neg (by omega)]

/-- The node of the program itself. -/
theorem Grown.root {stop : Nat} {t t' : SourceTree} (h : Grown (rooted tokens stop t) t') :
    t'.nodes[t.size]? = some ⟨programSpan tokens stop, none, none⟩ := by
  have size : (rooted tokens stop t).size = t.size + 1 := SourceTree.size_push ..
  rw [h.old t.size (by omega), rooted, SourceTree.nodes_push, if_pos rfl]

/-- A node was there before the source was read, or the list around it is an earlier one. -/
theorem parent_treeAfter {t : SourceTree} {source : String} {k : Nat} {n : Node} {p : NodeId}
    (found : (treeAfter t source).nodes[k]? = some n) (inside : n.parent = some p) :
    t.nodes[k]? = some n ∨ p.tree = t.id ∧ p.index < k := by
  have grown := grown_treeAfter t source
  have id : (Reader.treeAfter t source).id = t.id := grown.id
  have size : (rooted (tokenize source) source.utf8ByteSize t).size = t.size + 1 :=
    SourceTree.size_push ..
  by_cases old : k < t.size
  · exact .inl ((grown.nodes_old old).symm.trans found)
  · by_cases isRoot : k = t.size
    · rw [isRoot, grown.root] at found
      cases found
      cases inside
    · rw [← id]
      exact .inr (grown.parents k n p (by omega) found inside)

theorem Ordered.treeAfter {t : SourceTree} (h : Ordered t) (source : String) :
    Ordered (treeAfter t source) := by
  intro k n p found inside
  have id : (Reader.treeAfter t source).id = t.id := (grown_treeAfter t source).id
  rw [id]
  rcases parent_treeAfter found inside with old | new
  · exact h k n p old inside
  · exact new

theorem Built.ordered {t : SourceTree} (h : Built t) : Ordered t := by
  induction h with
  | new id =>
    intro k n p found
    simp at found
  | read source _ ih => exact ih.treeAfter source

/-- The lists of a program have the new nodes, in the order in which they open. -/
theorem Accepted.origins {stop : Nat} {t t' : SourceTree} {program : Value}
    (h : Accepted tokens stop t program t') :
    program.origins = (List.range' t.size (t'.size - t.size)).map fun k => some ⟨t.id, k⟩ := by
  have id : t'.id = t.id := h.grown.id
  obtain ⟨forms, rfl, recorded⟩ := h.recorded
  have le := recorded.le
  have size : t'.size - t.size = (t'.size - (t.size + 1)) + 1 := by omega
  rw [Value.origins_list, recorded.origins, id, size, List.range'_succ]
  rfl

/-- The program's own node. -/
theorem Accepted.root {stop : Nat} {t t' : SourceTree} {program : Value}
    (h : Accepted tokens stop t program t') :
    t'.get? t.nextId = some ⟨programSpan tokens stop, none, none⟩ := by
  have here : t.nextId.tree = t'.id := h.grown.id.symm
  rw [SourceTree.get?, if_pos here]
  exact h.grown.root

/-- A list inside a program has a node, which names the list directly around it, its head and its
place. The index counts the lists that were opened before. -/
theorem Accepted.node {source : String} {t t' : SourceTree} {program : Value}
    (h : Accepted (tokenize source) source.utf8ByteSize t program t') {items : List Value}
    {tag : ListTag} {origin : Option NodeId} {outer : Value} {around : List Value}
    (nested : Nested program (.list items tag origin :: outer :: around)) :
    tag = .code ∧ ∃ rank span, origin = some ⟨t.id, t.size + 1 + rank⟩ ∧
      t'.get? ⟨t.id, t.size + 1 + rank⟩ =
        some ⟨span, outer.origin?, items.head?.bind Value.symbol?⟩ ∧
      StandsAt source (.list items tag origin) rank span := by
  have id : t'.id = t.id := h.grown.id
  obtain ⟨forms, rfl, recorded⟩ := h.recorded
  rw [SourceTree.nextId, ← id] at nested
  obtain ⟨rfl, k, parent, rfl, outside, before, o, inner, c, after, placed⟩ :=
    Nested.exists_placed recorded nested rfl
  obtain rfl := placed.rank
  refine ⟨rfl, openings before, ⟨o.span.start, c.span.stop⟩, by rw [id], ?_, placed.standsAt _⟩
  rw [SourceTree.get?, if_pos id.symm, outside]
  exact placed.node

/-- **The source tree mirrors the text.** Take a tree that sources were read into, and read one
more. Every node from before stays as it was, whether the source can be read or not, and the list
around each list is an earlier one of the tree. If the source can be read, the lists of the program
have the new nodes, in the order in which they open. The program's own node has no list around it
and no head, and reaches from the first token to the end of the text. Every other list has a node
that names the list directly around it and the symbol that its first item is, if it is one; and the
node's bytes are the text of the list, from a parenthesis to the one that closes it, which, read
alone, is this one list again. -/
theorem tree_mirrors_source {t : SourceTree} (built : Built t) (source : String) :
    let t' := treeAfter t source
    (t'.id = t.id ∧ ∀ k < t.size, t'.nodes[k]? = t.nodes[k]?) ∧ Ordered t' ∧
      ∀ program, readProgram source t = .ok program t' →
        program.origins =
            (List.range' t.size (t'.size - t.size)).map (fun k => some ⟨t.id, k⟩) ∧
          (∃ forms, program = .list forms .code (some t.nextId)) ∧
          t'.get? t.nextId =
            some ⟨⟨((tokenize source).head?.map fun tok => tok.span.start).getD 0,
              source.utf8ByteSize⟩, none, none⟩ ∧
          ∀ items tag origin outer around,
            Nested program (.list items tag origin :: outer :: around) →
            ∃ rank span, origin = some ⟨t.id, t.size + 1 + rank⟩ ∧
              t'.get? ⟨t.id, t.size + 1 + rank⟩ =
                some ⟨span, outer.origin?, items.head?.bind Value.symbol?⟩ ∧
              StandsAt source (.list items tag origin) rank span := by
  intro t'
  have grown : Grown (rooted (tokenize source) source.utf8ByteSize t) t' := grown_treeAfter t source
  have sameId : t'.id = t.id := grown.id
  refine ⟨⟨sameId, fun k lt => grown.nodes_old lt⟩, built.ordered.treeAfter source, ?_⟩
  intro program read
  have accepted := accepted_of_readProgram read
  obtain ⟨forms, same, -⟩ := accepted.recorded
  refine ⟨accepted.origins, ⟨forms, same⟩, accepted.root, ?_⟩
  exact fun items tag origin outer around nested => (accepted.node nested).2

/-- After a source that was never closed, the list `(g)` inside `(f (g))` is recorded, behind a
letter of two bytes. -/
theorem tree_mirrors_source_inner :
    let t := treeAfter { id := 7 } "(a"
    let t' := treeAfter t "λ (f (g))"
    (readProgram "λ (f (g))" t matches .ok (.list [_, .list [_, .list ..] ..] ..) _) = true ∧
      Built t ∧ ∃ program items tag origin outer, readProgram "λ (f (g))" t = .ok program t' ∧
        Nested program [.list items tag origin, outer, program] ∧
        ∃ rank span, origin = some ⟨t.id, t.size + 1 + rank⟩ ∧
          t'.get? ⟨t.id, t.size + 1 + rank⟩ =
            some ⟨span, outer.origin?, items.head?.bind Value.symbol?⟩ ∧
          StandsAt "λ (f (g))" (.list items tag origin) rank span := by
  intro t t'
  refine (fun shape => ⟨shape, ?_⟩) (by decide +kernel)
  split at shape
  · rename_i a b items tag origin tag' origin' tag'' origin'' t'' read
    have same : t' = t'' := by
      change treeAfter t _ = t''
      rw [treeAfter, read]
    rw [← same] at read
    have nested : Nested (.list [a, .list [b, .list items tag origin] tag' origin'] tag'' origin'')
        [.list items tag origin, .list [b, .list items tag origin] tag' origin',
          .list [a, .list [b, .list items tag origin] tag' origin'] tag'' origin''] :=
      .item (.item .program (by simp)) (by simp)
    have built : Built t := .read "(a" (.new 7)
    exact ⟨built, _, items, tag, origin, _, read, nested,
      ((tree_mirrors_source built "λ (f (g))").2.2 _ read).2.2.2 _ _ _ _ _ nested⟩
  · cases shape

end Reader

end LazyLisp
