import LazyLisp.Proofs.Brackets
import LazyLisp.Proofs.Computation
import LazyLisp.Proofs.Literal
import LazyLisp.Reader.Program

/-!
# What a reading has recorded

While tokens are read, every list has its node in the source tree: complete if the list is closed,
provisional if it is still open. `Recorded` says this of the values read so far inside one list, and
`Pending` of the whole stack of open lists, together with the tokens that they were read from. One
token keeps `Progress` or is the first offence of the text; `progress_foldlM` carries this through
all tokens by induction.
-/

namespace LazyLisp

/-- The token opens a list. -/
def Token.opens (t : Token) : Bool := t.kind = .opening

/-- The token closes a list. -/
def Token.closes (t : Token) : Bool := t.kind = .closing

namespace Reader

/-- The number of lists that tokens open. -/
def openings (tokens : List Token) : Nat := tokens.countP Token.opens

/-- The number of lists that tokens close. -/
def closings (tokens : List Token) : Nat := tokens.countP Token.closes

@[simp] theorem openings_append (a b : List Token) : openings (a ++ b) = openings a + openings b :=
  List.countP_append

@[simp] theorem closings_append (a b : List Token) : closings (a ++ b) = closings a + closings b :=
  List.countP_append

@[simp] theorem openings_cons (t : Token) (ts : List Token) :
    openings (t :: ts) = openings ts + if t.kind = .opening then 1 else 0 := by
  simp [openings, List.countP_cons, Token.opens]

@[simp] theorem closings_cons (t : Token) (ts : List Token) :
    closings (t :: ts) = closings ts + if t.kind = .closing then 1 else 0 := by
  simp [closings, List.countP_cons, Token.closes]

@[simp] theorem openings_nil : openings [] = 0 := rfl

@[simp] theorem closings_nil : closings [] = 0 := rfl

/-! ## Complete lists -/

/-- Inside the list of index `parent`, while the tree grew from `first` to `next` nodes, the tokens
were read as the values; each list among them has its complete node in `t`. -/
inductive Recorded (t : SourceTree) : (parent first next : Nat) → List Token → List Value → Prop
  | nil {parent first : Nat} : Recorded t parent first first [] []
  | atom {parent first next : Nat} {tok : Token} {v : Value} {tokens : List Token}
    {values : List Value} : tok.kind = .atom → atom tok.lexeme = .ok v →
      Recorded t parent first next tokens values →
      Recorded t parent first next (tok :: tokens) (v :: values)
  | list {parent first middle next : Nat} {o c : Token} {inner rest : List Token}
    {items values : List Value} : o.kind = .opening → c.kind = .closing →
      t.nodes[first]? =
        some ⟨⟨o.span.start, c.span.stop⟩, some ⟨t.id, parent⟩, items.head?.bind Value.symbol?⟩ →
      Recorded t first (first + 1) middle inner items →
      Recorded t parent middle next rest values →
      Recorded t parent first next (o :: (inner ++ c :: rest))
        (.list items .code (some ⟨t.id, first⟩) :: values)

namespace Recorded

variable {t t' : SourceTree} {parent first middle next : Nat} {tokens rest : List Token}
  {values others : List Value}

theorem le (h : Recorded t parent first next tokens values) : first ≤ next := by
  induction h with
  | nil => exact Nat.le_refl _
  | atom _ _ _ ih => exact ih
  | list _ _ _ _ _ ihInner ihRest => omega

theorem append (h : Recorded t parent first middle tokens values)
    (h' : Recorded t parent middle next rest others) :
    Recorded t parent first next (tokens ++ rest) (values ++ others) := by
  induction h with
  | nil => exact h'
  | atom kind read _ ih => exact .atom kind read (ih h')
  | list ho hc node inner _ _ ihRest =>
    have whole := Recorded.list ho hc node inner (ihRest h')
    simpa using whole

/-- Only the nodes from `first` up to `next` matter. -/
theorem congr (h : Recorded t parent first next tokens values) (id : t'.id = t.id)
    (agree : ∀ k, first ≤ k → k < next → t'.nodes[k]? = t.nodes[k]?) :
    Recorded t' parent first next tokens values := by
  induction h with
  | nil => exact .nil
  | atom kind read _ ih => exact .atom kind read (ih agree)
  | list ho hc node inner rest ihInner ihRest =>
    have le := inner.le
    have le' := rest.le
    rw [← id] at node ⊢
    refine .list ho hc ?_ (ihInner fun k _ _ => agree k (by omega) (by omega))
      (ihRest fun k _ _ => agree k (by omega) (by omega))
    rw [agree _ (Nat.le_refl _) (by omega), node]

theorem balanced (h : Recorded t parent first next tokens values) :
    Balanced Token.opens Token.closes tokens := by
  induction h with
  | nil => exact .nil
  | @atom _ _ _ tok _ _ _ kind _ _ ih =>
    have neither : Balanced Token.opens Token.closes [tok] :=
      .single (by simp [Token.opens, kind]) (by simp [Token.closes, kind])
    exact neither.append ih
  | @list _ _ _ _ o c inner rest _ _ ho hc _ _ _ ihInner ihRest =>
    have wrapped : Balanced Token.opens Token.closes (o :: (inner ++ [c])) :=
      .wrap (by simp [Token.opens, ho]) (by simp [Token.closes, ho]) (by simp [Token.closes, hc])
        (by simp [Token.opens, hc]) ihInner
    have whole := wrapped.append ihRest
    simpa using whole

/-- As many nodes were added as lists were opened. -/
theorem openings_eq (h : Recorded t parent first next tokens values) :
    first + openings tokens = next := by
  induction h with
  | nil => simp
  | atom kind _ _ ih => simpa [kind] using ih
  | list ho hc _ _ _ ihInner ihRest =>
    simp only [openings_cons, openings_append, ho, hc, if_true, reduceCtorEq, if_false]
    omega

end Recorded

/-! ## Open lists -/

/-- From the program's own list, whose index is `root`, to the innermost one `l`: the lists still
open, with the tokens read so far and all that they were read as. The node of an open list has the
span of its parenthesis. -/
inductive Pending (t : SourceTree) (root : Nat) :
    (next : Nat) → List Token → OpenList → List OpenList → Prop
  | program {next : Nat} {l : OpenList} {tokens : List Token} :
    l.node = ⟨t.id, root⟩ → Recorded t root (root + 1) next tokens l.items.reverse →
      Pending t root next tokens l []
  | list {first next : Nat} {before inner : List Token} {o : Token} {l outer : OpenList}
    {around : List OpenList} : Pending t root first before outer around → o.kind = .opening →
      l.node = ⟨t.id, first⟩ → l.opening = o.span →
      t.nodes[first]? = some ⟨o.span, some outer.node, none⟩ →
      Recorded t first (first + 1) next inner l.items.reverse →
      Pending t root next (before ++ o :: inner) l (outer :: around)

namespace Pending

variable {t t' : SourceTree} {root next : Nat} {tokens : List Token} {l : OpenList}
  {around : List OpenList}

theorem node_eq (h : Pending t root next tokens l around) : l.node = ⟨t.id, l.node.index⟩ := by
  cases h with
  | program node _ => rw [node]
  | list _ _ node _ _ _ => rw [node]

theorem root_le (h : Pending t root next tokens l around) : root ≤ l.node.index := by
  induction h with
  | program node _ => rw [node]
  | list outer _ node _ _ _ ih =>
    rw [node]
    cases outer with
    | program outerNode items => exact Nat.le_of_succ_le items.le
    | list _ _ outerNode _ _ items =>
      rw [outerNode] at ih
      have le := items.le
      simp only at ih ⊢
      omega

theorem index_lt (h : Pending t root next tokens l around) : l.node.index < next := by
  cases h with
  | program node items => rw [node]; exact items.le
  | list _ _ node _ _ items => rw [node]; exact items.le

/-- Only the nodes after the root matter. -/
theorem congr (h : Pending t root next tokens l around) (id : t'.id = t.id)
    (agree : ∀ k, root < k → k < next → t'.nodes[k]? = t.nodes[k]?) :
    Pending t' root next tokens l around := by
  induction h with
  | program node items =>
    exact .program (by rw [node, id]) (items.congr id fun k low high => agree k low high)
  | list outer kind node opening provisional items ih =>
    have low := outer.root_le
    have high := outer.index_lt
    have le := items.le
    refine .list (ih fun k _ _ => agree k (by omega) (by omega)) kind (by rw [node, id]) opening ?_
      (items.congr id fun k _ _ => agree k (by omega) (by omega))
    rw [agree _ (by omega) (by omega), provisional]

/-- The innermost list with more values in it. -/
theorem extend {more : List Token} {values : List Value} {next' : Nat}
    (h : Pending t root next tokens l around)
    (h' : Recorded t l.node.index next next' more values) :
    Pending t root next' (tokens ++ more) { l with items := values.reverse ++ l.items } around := by
  cases h with
  | program node items =>
    rw [node] at h'
    refine .program node ?_
    have all := items.append h'
    simpa using all
  | list outer kind node opening provisional items =>
    rw [node] at h'
    have all := items.append h'
    have whole := Pending.list (l := { l with items := values.reverse ++ l.items }) outer kind node
      opening provisional (by simpa using all)
    simpa using whole

/-- The lists open are those opened and not yet closed. -/
theorem level (h : Pending t root next tokens l around) :
    closings tokens + around.length = openings tokens := by
  induction h with
  | program _ items =>
    have even := items.balanced.even
    simpa [openings, closings] using even
  | @list _ _ _ inner _ _ _ _ _ kind _ _ _ items ih =>
    have even : closings inner = openings inner := items.balanced.even
    simp only [closings_append, closings_cons, openings_append, openings_cons, kind, if_true,
      reduceCtorEq, if_false, List.length_cons]
    omega

end Pending

/-! ## One token -/

/-- The token `t`, read after `before`, cannot be right: it closes a list where none is open, or is
an integer literal that is too large. -/
def Offends (before : List Token) (t : Token) : Prop :=
  t.kind = .closing ∧ closings before = openings before ∨ t.kind = .atom ∧ TooLarge t.lexeme

/-- No token offends. -/
def Clean (tokens : List Token) : Prop :=
  ∀ before t after, tokens = before ++ t :: after → ¬ Offends before t

/-- The first token that offends. -/
def FirstOffence (tokens : List Token) (t : Token) : Prop :=
  ∃ before after, tokens = before ++ t :: after ∧ Offends before t ∧ Clean before

theorem clean_nil : Clean [] := by
  intro before t after split
  simp at split

theorem Clean.snoc {before : List Token} {t : Token} (h : Clean before)
    (fine : ¬ Offends before t) : Clean (before ++ [t]) := by
  intro b u a split
  rcases List.eq_nil_or_concat a with rfl | ⟨a, last, rfl⟩
  · obtain ⟨rfl, same⟩ := List.append_inj' split rfl
    obtain rfl : t = u := by simpa using same
    exact fine
  · rw [List.concat_eq_append, ← List.cons_append, ← List.append_assoc] at split
    obtain ⟨rfl, -⟩ := List.append_inj' split rfl
    exact h b u a rfl

/-- What reading may do to a tree: the nodes that were there stay, and every new one lies in an
older one of the same tree. -/
structure Grown (t₀ t : SourceTree) : Prop where
  id : t.id = t₀.id
  size : t₀.size ≤ t.size
  old : ∀ k < t₀.size, t.nodes[k]? = t₀.nodes[k]?
  parents : ∀ k n p, t₀.size ≤ k → t.nodes[k]? = some n → n.parent = some p →
    p.tree = t.id ∧ p.index < k

theorem Grown.refl (t : SourceTree) : Grown t t where
  id := rfl
  size := Nat.le_refl _
  old := fun _ _ => rfl
  parents := by
    intro k n p beyond found _
    have lt : k < t.size := (Array.getElem?_eq_some_iff.1 found).1
    omega

/-- The state of a reading after the tokens `before`, none of which offended. The program's own node
is the last of `t₀`. -/
structure Progress (t₀ : SourceTree) (before : List Token) (r : Reading) (t : SourceTree) :
    Prop where
  grown : Grown t₀ t
  pending : Pending t (t₀.size - 1) t.size before r.innermost r.around
  clean : Clean before

variable {t₀ t : SourceTree} {before : List Token} {r : Reading} {tok : Token}

theorem Grown.push (h : Grown t₀ t) {parent : NodeId} (span : Span) (tree : parent.tree = t.id)
    (older : parent.index < t.size) : Grown t₀ (t.push span (some parent)) where
  id := h.id
  size := by
    have le := h.size
    rw [SourceTree.size_push]
    omega
  old := by
    intro k lt
    have le := h.size
    rw [SourceTree.nodes_push, if_neg (by omega), h.old k lt]
  parents := by
    intro k n p new found inside
    rw [SourceTree.nodes_push] at found
    split at found
    · obtain rfl := Option.some.inj found
      obtain rfl := Option.some.inj inside
      exact ⟨tree, by omega⟩
    · exact h.parents k n p new found inside

theorem Grown.close (h : Grown t₀ t) {i : Nat} (new : t₀.size ≤ i) (stop : Nat)
    (head : Option String) : Grown t₀ (t.close ⟨t.id, i⟩ stop head) where
  id := by rw [SourceTree.id_close, h.id]
  size := by rw [SourceTree.size_close]; exact h.size
  old := by
    intro k lt
    rw [SourceTree.nodes_close, if_neg (by omega), h.old k lt]
  parents := by
    intro k n p new found inside
    rw [SourceTree.id_close]
    rw [SourceTree.nodes_close] at found
    split at found
    · obtain ⟨n', before, rfl⟩ := Option.map_eq_some_iff.1 found
      exact h.parents k n' p new before inside
    · exact h.parents k n p new found inside

theorem progress_opening (h : Progress t₀ before r t) (kind : tok.kind = .opening) :
    Progress t₀ (before ++ [tok])
      ⟨{ node := t.nextId, opening := tok.span }, r.innermost :: r.around⟩
      (t.push tok.span (some r.innermost.node)) where
  grown := by
    have lt := h.pending.index_lt
    have tree : r.innermost.node.tree = t.id := by rw [h.pending.node_eq]
    exact h.grown.push tok.span tree lt
  pending := by
    have kept : Pending (t.push tok.span (some r.innermost.node)) (t₀.size - 1) t.size before
        r.innermost r.around := by
      refine h.pending.congr rfl fun k _ lt => ?_
      rw [SourceTree.nodes_push, if_neg (by omega)]
    rw [SourceTree.size_push]
    refine .list kept kind rfl rfl ?_ .nil
    rw [SourceTree.nodes_push, if_pos rfl]
  clean := h.clean.snoc (by simp [Offends, kind])

theorem progress_atom {v : Value} (h : Progress t₀ before r t) (kind : tok.kind = .atom)
    (read : atom tok.lexeme = .ok v) :
    Progress t₀ (before ++ [tok]) { r with innermost := r.innermost.add v } t where
  grown := h.grown
  pending := h.pending.extend (.atom kind read .nil)
  clean := by
    have fits := exists_atom_iff.1 ⟨v, read⟩
    exact h.clean.snoc (by simp [Offends, kind, fits])

theorem progress_closing {outer : OpenList} {around : List OpenList} (h : Progress t₀ before r t)
    (kind : tok.kind = .closing) (inside : r.around = outer :: around) (rooted : 0 < t₀.size) :
    Progress t₀ (before ++ [tok]) ⟨outer.add r.innermost.toValue, around⟩
      (t.close r.innermost.node tok.span.stop r.innermost.head?) := by
  obtain ⟨l, _⟩ := r
  obtain rfl := inside
  obtain ⟨grown, pending, clean⟩ := h
  dsimp only at pending ⊢
  have level := pending.level
  cases pending with
  | @list i _ before inner o _ _ _ houter ho node opening provisional items =>
    have outerNode := houter.node_eq
    have low := houter.root_le
    have high := houter.index_lt
    have le := items.le
    have toValue : l.toValue = .list l.items.reverse .code (some ⟨t.id, i⟩) := by
      rw [← node]
      rfl
    rw [node, toValue]
    have id : (t.close ⟨t.id, i⟩ tok.span.stop l.head?).id = t.id := SourceTree.id_close ..
    refine ⟨grown.close (by omega) _ _, ?_, ?_⟩
    · have keptOuter : Pending (t.close ⟨t.id, i⟩ tok.span.stop l.head?) (t₀.size - 1) i before
          outer around := by
        refine houter.congr id fun k _ lt => ?_
        rw [SourceTree.nodes_close, if_neg (by omega)]
      have keptItems : Recorded (t.close ⟨t.id, i⟩ tok.span.stop l.head?) i (i + 1) t.size inner
          l.items.reverse := by
        refine items.congr id fun k low _ => ?_
        rw [SourceTree.nodes_close, if_neg (by omega)]
      have complete : (t.close ⟨t.id, i⟩ tok.span.stop l.head?).nodes[i]? =
          some ⟨⟨o.span.start, tok.span.stop⟩,
            some ⟨(t.close ⟨t.id, i⟩ tok.span.stop l.head?).id, outer.node.index⟩,
            l.items.reverse.head?.bind Value.symbol?⟩ := by
        rw [SourceTree.nodes_close, if_pos rfl, provisional, Option.map_some, id, ← outerNode,
          List.head?_reverse]
        rfl
      have closed := keptOuter.extend (.list ho kind complete keptItems .nil)
      rw [id] at closed
      rw [SourceTree.size_close]
      simpa [OpenList.add] using closed
    · refine clean.snoc ?_
      simp only [Offends, kind, true_and, reduceCtorEq, false_and, or_false]
      simp only [List.length_cons] at level
      omega

/-- One token: the reading goes on, or the token offends and the tree stays as it is. -/
theorem progress_feed (h : Progress t₀ before r t) (rooted : 0 < t₀.size) (tok : Token) :
    (∃ r' t', r.feed tok t = .ok r' t' ∧ Progress t₀ (before ++ [tok]) r' t') ∨
      ∃ f : Fault, r.feed tok t = .error (f.diagnosticAt tok.span) t ∧ f.kind = .reading ∧
        Offends before tok := by
  unfold Reading.feed
  cases kind : tok.kind with
  | opening => exact .inl ⟨_, _, rfl, progress_opening h kind⟩
  | closing =>
    cases inside : r.around with
    | nil =>
      have level := h.pending.level
      rw [inside, List.length_nil] at level
      exact .inr ⟨_, rfl, rfl, .inl ⟨kind, by omega⟩⟩
    | cons outer around => exact .inl ⟨_, _, rfl, progress_closing h kind inside rooted⟩
  | atom =>
    cases read : atom tok.lexeme with
    | ok v => exact .inl ⟨_, _, rfl, progress_atom h kind read⟩
    | error f =>
      obtain ⟨large, rfl⟩ := atom_eq_error_iff.1 read
      exact .inr ⟨_, rfl, rfl, .inr ⟨kind, large⟩⟩

/-! ## All tokens -/

/-- Reading stopped at the first token that offends. -/
structure Stopped (t₀ : SourceTree) (tokens : List Token) (d : Diagnostic) (t : SourceTree) :
    Prop where
  grown : Grown t₀ t
  kind : d.kind = .reading
  offence : ∃ tok, FirstOffence tokens tok ∧ d.span = some tok.span

theorem progress_foldlM (h : Progress t₀ before r t) (rooted : 0 < t₀.size)
    (tokens : List Token) :
    (∃ r' t', tokens.foldlM Reading.feed r t = .ok r' t' ∧ Progress t₀ (before ++ tokens) r' t') ∨
      ∃ d t', tokens.foldlM Reading.feed r t = .error d t' ∧
        Stopped t₀ (before ++ tokens) d t' := by
  induction tokens generalizing before r t with
  | nil =>
    rw [List.append_nil]
    exact .inl ⟨r, t, rfl, h⟩
  | cons tok tokens ih =>
    rw [List.foldlM_cons]
    rcases progress_feed h rooted tok with ⟨r', t', fed, after⟩ | ⟨f, fed, kind, offence⟩
    · rw [bind_of_ok fed]
      simpa using ih after
    · rw [bind_of_error fed]
      exact .inr ⟨_, _, rfl, h.grown, kind, tok, ⟨before, tokens, rfl, offence, h.clean⟩, rfl⟩

/-- The list opened by `t` is not closed by any of the tokens `after` it. -/
def Unmatched (t : Token) (after : List Token) : Prop :=
  t.kind = .opening ∧ ∀ p, p <+: after → closings p ≤ openings p

/-- The last of the tokens that open a list which is never closed. -/
def LastUnmatched (tokens : List Token) (t : Token) : Prop :=
  ∃ before after, tokens = before ++ t :: after ∧ Unmatched t after ∧
    ∀ b u a, after = b ++ u :: a → ¬ Unmatched u a

/-- Between the innermost open list and the end all lists are closed. -/
theorem Pending.lastUnmatched {root next : Nat} {tokens : List Token} {l outer : OpenList}
    {around : List OpenList} (h : Pending t root next tokens l (outer :: around)) :
    ∃ tok, LastUnmatched tokens tok ∧ l.opening = tok.span := by
  cases h with
  | @list _ _ before inner o _ _ _ _ ho _ opening _ items =>
    have balanced := items.balanced
    refine ⟨o, ⟨before, inner, rfl, ⟨ho, balanced.ahead⟩, ?_⟩, opening⟩
    intro b u a split unmatched
    have closed : a.countP Token.opens < a.countP Token.closes := by
      rw [split] at balanced
      exact balanced.closed_after (by simp [Token.opens, unmatched.1])
        (by simp [Token.closes, unmatched.1])
    have ahead : a.countP Token.closes ≤ a.countP Token.opens :=
      unmatched.2 a (List.prefix_refl a)
    omega

/-- Where a program stands: from its first token, or the start of the text, to its end. -/
def programSpan (tokens : List Token) (stop : Nat) : Span :=
  ⟨(tokens.head?.map fun tok => tok.span.start).getD 0, stop⟩

/-- The tree in which the program's own node is the last. -/
def rooted (tokens : List Token) (stop : Nat) (t : SourceTree) : SourceTree :=
  t.push (programSpan tokens stop) none

/-- A program was read: all its lists have their nodes. -/
structure Accepted (tokens : List Token) (stop : Nat) (t : SourceTree) (program : Value)
    (t' : SourceTree) : Prop where
  grown : Grown (rooted tokens stop t) t'
  recorded : ∃ items, program = .list items .code (some t.nextId) ∧
    Recorded t' t.size (t.size + 1) t'.size tokens items
  clean : Clean tokens

/-- No program was read, because of the first token that offends, or, if none does, because of the
last list that is not closed. -/
structure Refused (tokens : List Token) (stop : Nat) (t : SourceTree) (d : Diagnostic)
    (t' : SourceTree) : Prop where
  grown : Grown (rooted tokens stop t) t'
  kind : d.kind = .reading
  place : (∃ tok, FirstOffence tokens tok ∧ d.span = some tok.span) ∨
    Clean tokens ∧ ∃ tok, LastUnmatched tokens tok ∧ d.span = some tok.span

/-- **Every reading ends in one of two ways.** -/
theorem readTokens_cases (tokens : List Token) (stop : Nat) (t : SourceTree) :
    (∃ program t', readTokens tokens stop t = .ok program t' ∧
        Accepted tokens stop t program t') ∨
      ∃ d t', readTokens tokens stop t = .error d t' ∧ Refused tokens stop t d t' := by
  let root : OpenList := { node := t.nextId, opening := programSpan tokens stop }
  have start : Progress (rooted tokens stop t) [] ⟨root, []⟩ (rooted tokens stop t) := by
    have size : (rooted tokens stop t).size = t.size + 1 := SourceTree.size_push ..
    refine ⟨.refl _, ?_, clean_nil⟩
    rw [size]
    exact .program rfl .nil
  have some_node : 0 < (rooted tokens stop t).size := by
    rw [rooted, SourceTree.size_push]
    omega
  have opened : readTokens tokens stop t =
      (tokens.foldlM Reading.feed ⟨root, []⟩ >>= Reading.finish) (rooted tokens stop t) := rfl
  rw [opened]
  rcases progress_foldlM start some_node tokens with ⟨r, t', fed, after⟩ | ⟨d, t', fed, stopped⟩
  · rw [bind_of_ok fed]
    rw [List.nil_append] at after
    obtain ⟨l, around⟩ := r
    have pending := after.pending
    cases around with
    | nil =>
      refine .inl ⟨_, t', rfl, after.grown, ?_, after.clean⟩
      cases pending with
      | program node items =>
        rw [rooted, SourceTree.size_push] at items node
        have sameNode : l.node = t.nextId := node.trans (by rw [after.grown.id]; rfl)
        refine ⟨l.items.reverse, ?_, items⟩
        rw [OpenList.toValue, sameNode]
    | cons outer around =>
      obtain ⟨tok, unmatched, opening⟩ := pending.lastUnmatched
      refine .inr ⟨_, t', rfl, after.grown, rfl, .inr ⟨after.clean, tok, unmatched, ?_⟩⟩
      rw [← opening]
      rfl
  · rw [bind_of_error fed]
    exact .inr ⟨d, t', rfl, stopped.grown, stopped.kind, .inl stopped.offence⟩

/-- Exactly the tokens with balanced lists and without literals that are too large can be read. -/
theorem exists_readTokens_iff (tokens : List Token) (stop : Nat) (t : SourceTree) :
    (∃ program t', readTokens tokens stop t = .ok program t') ↔
      Balanced Token.opens Token.closes tokens ∧
        ∀ tok ∈ tokens, tok.kind = .atom → ¬ TooLarge tok.lexeme := by
  rcases readTokens_cases tokens stop t with ⟨program, t', read, accepted⟩ | ⟨d, t', read, refused⟩
  · obtain ⟨items, -, recorded⟩ := accepted.recorded
    refine iff_of_true ⟨program, t', read⟩ ⟨recorded.balanced, fun tok member kind large => ?_⟩
    obtain ⟨before, after, split⟩ := List.append_of_mem member
    exact accepted.clean before tok after split (.inr ⟨kind, large⟩)
  · refine iff_of_false ?_ ?_
    · rintro ⟨program, t'', again⟩
      rw [read] at again
      cases again
    · rintro ⟨balanced, fit⟩
      rcases refused.place with ⟨tok, ⟨before, after, rfl, offence, -⟩, -⟩ |
        ⟨-, tok, ⟨before, after, rfl, unmatched, -⟩, -⟩
      · rcases offence with ⟨kind, even⟩ | ⟨kind, large⟩
        · have ahead : closings (before ++ [tok]) ≤ openings (before ++ [tok]) :=
            balanced.ahead _ ⟨after, by simp⟩
          simp only [closings_append, openings_append, closings_cons, openings_cons, kind, if_true,
            reduceCtorEq, if_false, closings_nil, openings_nil] at ahead
          omega
        · exact fit tok (by simp) kind large
      · have closed : openings after < closings after :=
          balanced.closed_after (by simp [Token.opens, unmatched.1])
            (by simp [Token.closes, unmatched.1])
        have ahead := unmatched.2 after (List.prefix_refl after)
        omega

end Reader

end LazyLisp
