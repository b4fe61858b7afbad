import LazyLisp.Proofs.Reading

/-!
# Reading by recursive descent

The same language, read by functions that call each other: one for a form, one for the rest of a
list, one for the rest of the program. They share a position among the tokens, and `advance` takes
the token at that position whether or not there is one. Every call that comes back has moved on and
is still within the tokens: its cursor says so, and that is why the descent ends. The descent does
what the fold over the tokens does, on every list of tokens, so it never asks for a token beyond the
last.
-/

namespace LazyLisp.Reader.Descent

/-- Why a descent stops short. -/
inductive Stop where
  | report (d : Diagnostic)
  /-- A token was asked for at a position where there is none. -/
  | beyondEnd

/-- The position of the next token, and the source tree. -/
structure Cursor where
  position : Nat
  tree : SourceTree

/-- A cursor that has moved on from `c` and is within the tokens. -/
structure Further (tokens : List Token) (c : Cursor) extends Cursor where
  further : c.position < position
  within : position ≤ tokens.length

/-- The cursor has moved on from any cursor that `c` has not gone back from. -/
def Further.since {tokens : List Token} {c : Cursor} (c' : Further tokens c) (start : Cursor)
    (h : start.position ≤ c.position) : Further tokens start :=
  { c' with further := Nat.lt_of_le_of_lt h c'.further }

/-- What a call comes back with: a value and where the next token stands. -/
abbrev Outcome (tokens : List Token) (c : Cursor) := Except Stop (Value × Further tokens c)

/-- Past the next token. -/
def Cursor.next {tokens : List Token} (c : Cursor) (h : c.position < tokens.length) :
    Further tokens c :=
  { c with position := c.position + 1, further := Nat.lt_succ_self _, within := h }

/-- The next token, and past it. -/
def advance (tokens : List Token) (c : Cursor) : Except Stop (Token × Further tokens c) :=
  if h : c.position < tokens.length then .ok (tokens[c.position], c.next h)
  else .error .beyondEnd

mutual

/-- Reads one form inside the list `parent`. -/
def form (tokens : List Token) (parent : NodeId) (c : Cursor) : Outcome tokens c := do
  let (t, c₁) ← advance tokens c
  match t.kind with
  | .opening =>
    let l : OpenList := { node := c₁.tree.nextId, opening := t.span }
    let (v, c₂) ← items tokens l ⟨c₁.position, c₁.tree.push t.span (some parent)⟩
    return (v, c₂.since c (Nat.le_of_lt c₁.further))
  | .closing => throw (.report (Fault.strayClosing.diagnosticAt t.span))
  | .atom =>
    match atom t.lexeme with
    | .ok v => return (v, c₁)
    | .error f => throw (.report (f.diagnosticAt t.span))
termination_by (tokens.length - c.position, 0)
decreasing_by
  have moved := c₁.further
  have within := c₁.within
  decreasing_with omega

/-- Reads the rest of a list, up to the token that closes it. -/
def items (tokens : List Token) (l : OpenList) (c : Cursor) : Outcome tokens c := do
  match tokens[c.position]? with
  | none => throw (.report (Fault.unterminated.diagnosticAt l.opening))
  | some t =>
    if t.kind = .closing then
      let (t, c₁) ← advance tokens c
      return (l.toValue, { c₁ with tree := c₁.tree.close l.node t.span.stop l.head? })
    else
      let (v, c₁) ← form tokens l.node c
      let (list, c₂) ← items tokens (l.add v) c₁.toCursor
      return (list, c₂.since c (Nat.le_of_lt c₁.further))
termination_by (tokens.length - c.position, 1)
decreasing_by
  · decreasing_with omega
  · have moved := c₁.further
    have within := c₁.within
    decreasing_with omega

end

/-- Reads the rest of a program. -/
def forms (tokens : List Token) (l : OpenList) (c : Cursor) : Except Stop (Value × SourceTree) := do
  match tokens[c.position]? with
  | none => return (l.toValue, c.tree)
  | some t =>
    if t.kind = .closing then throw (.report (Fault.strayClosing.diagnosticAt t.span))
    else
      let (v, c₁) ← form tokens l.node c
      forms tokens (l.add v) c₁.toCursor
termination_by tokens.length - c.position
decreasing_by
  have moved := c₁.further
  have within := c₁.within
  omega

/-- Reads the tokens of a program that ends at byte offset `stop`. -/
def program (tokens : List Token) (stop : Nat) (tree : SourceTree) :
    Except Stop (Value × SourceTree) :=
  let span : Span := ⟨(tokens.head?.map fun t => t.span.start).getD 0, stop⟩
  forms tokens { node := tree.nextId, opening := span } ⟨0, tree.push span none⟩

/-! ## The descent and the fold -/

variable {tokens : List Token} {c : Cursor} {t : Token} {position : Nat}

theorem length_of_getElem? (h : tokens[position]? = some t) : position < tokens.length :=
  (List.getElem?_eq_some_iff.1 h).1

theorem advance_eq (h : tokens[c.position]? = some t) :
    advance tokens c = .ok (t, c.next (length_of_getElem? h)) := by
  obtain ⟨bounded, rfl⟩ := List.getElem?_eq_some_iff.1 h
  exact dif_pos bounded

/-- Reads the tokens from a position on, in a program read in part. -/
def readFrom (tokens : List Token) (position : Nat) (r : Reading) : ReadM Value :=
  (tokens.drop position).foldlM Reading.feed r >>= Reading.finish

theorem drop_of_getElem? (h : tokens[position]? = some t) :
    tokens.drop position = t :: tokens.drop (position + 1) := by
  rw [List.drop_eq_getElem?_toList_append, h]
  rfl

/-- The fold takes one token. -/
theorem readFrom_of_feed {r r' : Reading} {tree tree' : SourceTree}
    (h : tokens[position]? = some t) (fed : r.feed t tree = .ok r' tree') :
    readFrom tokens position r tree = readFrom tokens (position + 1) r' tree' := by
  rw [readFrom, drop_of_getElem? h, List.foldlM_cons, bind_assoc, bind_of_ok fed]
  rfl

theorem readFrom_of_feed_error {r : Reading} {tree tree' : SourceTree} {d : Diagnostic}
    (h : tokens[position]? = some t) (fed : r.feed t tree = .error d tree') :
    readFrom tokens position r tree = .error d tree' := by
  rw [readFrom, drop_of_getElem? h, List.foldlM_cons, bind_assoc, bind_of_error fed]

theorem readFrom_end (h : tokens[position]? = none) (r : Reading) :
    readFrom tokens position r = r.finish := by
  have none : tokens.drop position = [] := by
    rw [List.drop_eq_nil_iff]
    exact List.getElem?_eq_none_iff.1 h
  rw [readFrom, none, List.foldlM_nil, pure_bind]

/-- The program read in part, with one more value. -/
def add (r : Reading) (v : Value) : Reading := { r with innermost := r.innermost.add v }

/-- The fold, where it has just opened the list `l`. -/
def inside (l : OpenList) (r : Reading) : Reading := ⟨l, r.innermost :: r.around⟩

/-- A call made at the cursor `c`, inside the list `parent`, and the fold that is there in the same
state agree: the call gives a value and the fold goes on with that value added, or both stop with
the same report. What was read of the value already is how `start` makes the fold begin. -/
def Agrees (c : Cursor) (parent : NodeId) (start : Reading → Reading) : Outcome tokens c → Prop
  | .ok (v, c') => ∀ r, r.innermost.node = parent →
    readFrom tokens c.position (start r) c.tree = readFrom tokens c'.position (add r v) c'.tree
  | .error (.report d) => ∀ r, r.innermost.node = parent →
    ∃ tree, readFrom tokens c.position (start r) c.tree = .error d tree
  | .error .beyondEnd => False

/-- A call that goes on where another has come to is one call from where that one began. -/
theorem Agrees.since {c₁ : Cursor} {parent : NodeId} {start start₁ : Reading → Reading}
    {outcome : Outcome tokens c₁} (h : Agrees c₁ parent start₁ outcome)
    (le : c.position ≤ c₁.position)
    (same : ∀ r, r.innermost.node = parent → readFrom tokens c.position (start r) c.tree =
      readFrom tokens c₁.position (start₁ r) c₁.tree) :
    Agrees c parent start (do let p ← outcome; return (p.1, p.2.since c le)) := by
  cases outcome with
  | error stop =>
    cases stop with
    | report d =>
      intro r node
      rw [same r node]
      exact h r node
    | beyondEnd => exact h
  | ok p =>
    intro r node
    rw [same r node]
    exact h r node

/-- One form, given that the rest of a list is read as the fold reads it. Before a token that closes
a list no form is asked for. -/
theorem form_agrees (parent : NodeId) (h : tokens[c.position]? = some t)
    (notClosing : t.kind ≠ .closing)
    (rest : ∀ l tree, Agrees ⟨c.position + 1, tree⟩ parent (inside l)
      (items tokens l ⟨c.position + 1, tree⟩)) :
    Agrees c parent (fun r => r) (form tokens parent c) := by
  rw [form, advance_eq h]
  simp only [bind, Except.bind]
  cases kind : t.kind with
  | opening =>
    let l : OpenList := { node := c.tree.nextId, opening := t.span }
    have fed : ∀ r : Reading, r.innermost.node = parent →
        r.feed t c.tree = .ok (inside l r) (c.tree.push t.span (some parent)) := by
      rintro r rfl
      simp only [Reading.feed, kind]
      rfl
    exact (rest l _).since (Nat.le_succ _) fun r node => readFrom_of_feed h (fed r node)
  | closing => exact absurd kind notClosing
  | atom =>
    cases read : atom t.lexeme with
    | ok v =>
      intro r _
      refine readFrom_of_feed h ?_
      simp only [Reading.feed, kind, read]
      rfl
    | error f =>
      intro r _
      refine ⟨c.tree, readFrom_of_feed_error h ?_⟩
      simp only [Reading.feed, kind, read]
      rfl

/-- The rest of a list, given that shorter rests are read as the fold reads them. -/
theorem items_agrees (parent : NodeId) (l : OpenList)
    (shorter : ∀ c' : Further tokens c, ∀ parent l,
      Agrees c'.toCursor parent (inside l) (items tokens l c'.toCursor)) :
    Agrees c parent (inside l) (items tokens l c) := by
  rw [items]
  cases h : tokens[c.position]? with
  | none =>
    intro r _
    rw [readFrom_end h]
    exact ⟨c.tree, rfl⟩
  | some t =>
    simp only
    split
    · next kind =>
      rw [advance_eq h]
      intro r _
      refine readFrom_of_feed h ?_
      simp only [Reading.feed, kind]
      rfl
    · next notClosing =>
      have first : Agrees c l.node (fun r => r) (form tokens l.node c) :=
        form_agrees l.node h notClosing fun l tree =>
          shorter { c.next (length_of_getElem? h) with tree := tree } _ l
      cases formed : form tokens l.node c with
      | error stop =>
        rw [formed] at first
        cases stop with
        | report d => exact fun r _ => first (inside l r) rfl
        | beyondEnd => exact first
      | ok p =>
        rw [formed] at first
        obtain ⟨v, c₁⟩ := p
        exact (shorter c₁ parent (l.add v)).since (Nat.le_of_lt c₁.further)
          fun r _ => first (inside l r) rfl

/-- The rest of any list, by induction on the tokens that are left. -/
theorem items_agrees_everywhere (c : Cursor) (parent : NodeId) (l : OpenList) :
    Agrees c parent (inside l) (items tokens l c) := by
  induction left : tokens.length - c.position using Nat.strongRecOn generalizing c parent l with
  | ind left ih =>
    refine items_agrees parent l fun c' parent l => ih _ ?_ c'.toCursor parent l rfl
    have moved := c'.further
    have within := c'.within
    omega

/-- How a descent ends that does what a reading did. -/
def ended : EStateM.Result Diagnostic SourceTree Value → Except Stop (Value × SourceTree)
  | .ok v tree => .ok (v, tree)
  | .error d _ => .error (.report d)

/-- The rest of a program, by induction on the tokens that are left. -/
theorem forms_eq (c : Cursor) (l : OpenList) :
    forms tokens l c = ended (readFrom tokens c.position ⟨l, []⟩ c.tree) := by
  induction left : tokens.length - c.position using Nat.strongRecOn generalizing c l with
  | ind left ih =>
    rw [forms]
    cases h : tokens[c.position]? with
    | none =>
      rw [readFrom_end h]
      rfl
    | some t =>
      simp only
      split
      · next kind =>
        have stray : Reading.feed ⟨l, []⟩ t c.tree =
            .error (Fault.strayClosing.diagnosticAt t.span) c.tree := by
          simp only [Reading.feed, kind]
          rfl
        rw [readFrom_of_feed_error h stray]
        rfl
      · next notClosing =>
        have first : Agrees c l.node (fun r => r) (form tokens l.node c) :=
          form_agrees l.node h notClosing fun _ _ => items_agrees_everywhere _ _ _
        cases formed : form tokens l.node c with
        | error stop =>
          rw [formed] at first
          cases stop with
          | report d =>
            obtain ⟨tree, failed⟩ := first ⟨l, []⟩ rfl
            rw [failed]
            rfl
          | beyondEnd => exact first.elim
        | ok p =>
          rw [formed] at first
          obtain ⟨v, c₁⟩ := p
          have moved := c₁.further
          have within := c₁.within
          rw [first ⟨l, []⟩ rfl]
          exact ih _ (by omega) c₁.toCursor (l.add v) rfl

/-- **The descent is the fold.** Where the fold gives a program, the descent gives it with the same
tree; where the fold reports, the descent gives that report. -/
theorem program_eq (tokens : List Token) (stop : Nat) (tree : SourceTree) :
    program tokens stop tree = ended (readTokens tokens stop tree) :=
  forms_eq _ _

end LazyLisp.Reader.Descent
