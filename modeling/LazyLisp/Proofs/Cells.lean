import LazyLisp.Proofs.Division
import LazyLisp.Proofs.Printing

/-!
# Cells in print

A cell prints as its head and what its tail adds to it: the tail's own items if it is a cell, a dot
and the tail's text otherwise. So a chain of cells prints as one flat list, whatever its items and
its end are, and the parts that `car` and `cdr` take from it are those it was built from.

A separator stands before every item but the first, also before one without any text. A tail whose
text is `()` may therefore still add a space: what counts is that it has no items.
-/

namespace LazyLisp

namespace Value

/-- The texts, with a space between any two. -/
def spaced (vs : List Value) : String := " ".intercalate (vs.map display)

/-- What stands between the parentheses of a cell with these items. -/
def inCell (items : List Value) : String := writeCell "" true items

/-- What a tail adds to the text of the cell that it ends. -/
def tailText : Value → String
  | .list items .cons _ => writeCell "" false items
  | v => " . " ++ v.display

/-- Whether a value is a list made of cells. -/
def IsCell : Value → Prop
  | .list _ .cons _ => True
  | _ => False

theorem spaced_cons (v : Value) (vs : List Value) :
    spaced (v :: vs) = v.display ++ writeItems "" false vs := by
  induction vs generalizing v with
  | nil => simp [spaced, writeItems]
  | cons w ws ih =>
    have rest : spaced (v :: w :: ws) = v.display ++ " " ++ spaced (w :: ws) :=
      String.intercalate_cons_cons
    rw [rest, ih w, writeItems_cons, String.append_assoc]
    rfl

theorem writeItems_eq_spaced (items : List Value) : writeItems "" true items = spaced items := by
  cases items with
  | nil => rw [writeItems, spaced, List.map_nil, String.intercalate_nil]
  | cons v vs => rw [writeItems_cons, spaced_cons, gap, if_pos rfl, String.empty_append]

/-! ## One cell -/

theorem writeCell_pair (first : Bool) (head tail : Value) :
    writeCell "" first [head, tail] = gap first ++ (head.display ++ tail.tailText) := by
  have written := (writes_append (gap first ++ head.display)).2.2 ""
  rw [String.append_empty] at written
  cases tail with
  | list items tag origin =>
    cases tag with
    | cons => rw [writeCell, write_eq, String.empty_append, written, String.append_assoc, tailText]
    | _ =>
      rw [writeCell, write_eq, write_eq, String.empty_append, tailText]
      · simp only [String.append_assoc]
      all_goals simp
  | _ =>
    rw [writeCell, write_eq, write_eq, String.empty_append, tailText]
    · simp only [String.append_assoc]
    all_goals simp

/-- Every list of cells but the empty one is set off from what stands before it by one space. -/
theorem writeCell_later {items : List Value} (nonempty : items ≠ []) :
    writeCell "" false items = " " ++ inCell items := by
  have plain : ∀ v vs, writeItems "" false (v :: vs) = " " ++ writeItems "" true (v :: vs) := by
    intro v vs
    rw [writeItems_cons, writeItems_cons]
    simp [gap]
  unfold inCell
  obtain _ | ⟨v, _ | ⟨w, _ | ⟨x, rest⟩⟩⟩ := items
  · exact absurd rfl nonempty
  · rw [writeCell, writeCell, plain]
    all_goals simp
  · rw [writeCell_pair, writeCell_pair]
    simp [gap]
  · rw [writeCell, writeCell, plain]
    all_goals simp

theorem display_cell (items : List Value) (origin : Option NodeId) :
    display (.list items .cons origin) = "(" ++ inCell items ++ ")" := by
  have written := (writes_append "(").2.2 "" true items
  rw [String.append_empty] at written
  rw [display, write, String.empty_append, written, inCell]

theorem inCell_pair (head tail : Value) : inCell [head, tail] = head.display ++ tail.tailText := by
  rw [inCell, writeCell_pair, gap, if_pos rfl, String.empty_append]

theorem display_cons (head tail : Value) :
    (cons head tail).display = "(" ++ (head.display ++ tail.tailText) ++ ")" := by
  rw [cons, display_cell, inCell_pair]

theorem tailText_cons (head tail : Value) :
    (cons head tail).tailText = " " ++ (head.display ++ tail.tailText) := by
  rw [cons, tailText, writeCell_later (List.cons_ne_nil _ _), inCell_pair]

theorem tailText_of_not_cell {tail : Value} (other : ¬ tail.IsCell) :
    tail.tailText = " . " ++ tail.display := by
  cases tail with
  | list items tag origin =>
    cases tag with
    | cons => exact absurd trivial other
    | _ => rfl
  | _ => rfl

/-! ## Chains -/

/-- Cells in front of a tail add their heads, each after a space, to what the tail adds. -/
theorem tailText_foldr (heads : List Value) (tail : Value) :
    (heads.foldr cons tail).tailText = writeItems "" false heads ++ tail.tailText := by
  induction heads with
  | nil => rw [List.foldr_nil, writeItems, String.empty_append]
  | cons head heads ih =>
    rw [List.foldr_cons, tailText_cons, ih, writeItems_cons]
    simp [gap, String.append_assoc]

theorem display_foldr (head : Value) (heads : List Value) (tail : Value) :
    ((head :: heads).foldr cons tail).display =
      "(" ++ (spaced (head :: heads) ++ tail.tailText) ++ ")" := by
  rw [List.foldr_cons, display_cons, tailText_foldr, spaced_cons]
  simp only [String.append_assoc]

/-- The chain of some values is cells in front of a cell for the last of them. -/
theorem chain_append (before : List Value) (last : Value) :
    chain (before ++ [last]) = before.foldr cons (.list [last] .cons none) := by
  induction before with
  | nil => rfl
  | cons v before ih =>
    rw [List.foldr_cons, ← ih]
    cases before with
    | nil => exact chain_cons_cons v last []
    | cons w rest => exact chain_cons_cons v w (rest ++ [last])

theorem inCell_singleton (v : Value) : inCell [v] = v.display := by
  rw [inCell, writeCell]
  · rw [writeItems_eq_spaced]
    exact String.intercalate_singleton
  all_goals simp

theorem display_chain (items : List Value) :
    (chain items).display = "(" ++ spaced items ++ ")" := by
  rcases List.eq_nil_or_concat items with rfl | ⟨before, last, rfl⟩
  · show display (.list [] .cons none) = _
    rw [display_cell, inCell, writeCell, writeItems_eq_spaced]
    all_goals simp
  -- the last cell has one item, which stands alone or after the heads
  rw [List.concat_eq_append, chain_append]
  cases before with
  | nil =>
    rw [List.foldr_nil, display_cell, inCell_singleton]
    rfl
  | cons v before =>
    have joined : spaced (v :: before ++ [last]) = spaced (v :: before) ++ " " ++ last.display := by
      unfold spaced
      rw [List.map_append, String.intercalate_append_of_ne_nil (by simp) (by simp)]
      simp
    rw [display_foldr, tailText, writeCell_later (List.cons_ne_nil _ _), inCell_singleton, joined]
    simp only [String.append_assoc]

end Value

/-! ## Calls -/

namespace EvalM

variable (m : Memory)

theorem callBuiltin_list (items : List Value) :
    callBuiltin .list items m = .ok (.chain items) m :=
  callBuiltin_silent rfl m

theorem callBuiltin_cons (head tail : Value) :
    callBuiltin .cons [head, tail] m = .ok (.cons head tail) m :=
  callBuiltin_silent rfl m

theorem callBuiltin_car (first : Value) (rest : List Value) (tag : ListTag)
    (origin : Option NodeId) :
    callBuiltin .car [.list (first :: rest) tag origin] m = .ok first m :=
  callBuiltin_silent rfl m

theorem callBuiltin_cdr (before : List Value) (last : Value) (tag : ListTag)
    (origin : Option NodeId) :
    callBuiltin .cdr [.list (before ++ [last]) tag origin] m = .ok last m := by
  have picked : (before ++ [last]).getLast? = some last := List.getLast?_append_cons ..
  have result : Builtin.cdr.result [.list (before ++ [last]) tag origin] = .ok last := by
    simp only [Builtin.result, Builtin.pickFrom, Builtin.itemsOf, Value.items?]
    show Except.bind _ _ = _
    simp only [Except.bind, picked]
    rfl
  rw [callBuiltin_silent rfl, result]

/-- The calls that put heads in front of a tail, the last head first. -/
def consAll (heads : List Value) (tail : Value) : EvalM Value :=
  heads.foldrM (fun head tail => callBuiltin .cons [head, tail]) tail

theorem consAll_eq (heads : List Value) (tail : Value) :
    consAll heads tail m = .ok (heads.foldr .cons tail) m := by
  induction heads with
  | nil => rfl
  | cons head heads ih =>
    unfold consAll at ih ⊢
    rw [List.foldrM_cons, bind_of_ok ih]
    exact callBuiltin_cons m head _

/-- **Lists are built, taken apart and printed as one.** In every memory, which each of the calls
leaves as it is: `list` gives a value that prints as the texts of its arguments between parentheses,
with single spaces; `car` gives its first argument back and `cdr` the list of the others, or the
argument itself if there is only one. `cons` gives a cell from which `car` and `cdr` take the head
and the tail. A chain of cells ending in `tail` prints as its heads, then a dot and the tail if that
is no cell, then the tail's own items if it is a cell that has any. -/
theorem lists_print_as_built :
    (∀ items, ∃ v, callBuiltin .list items m = .ok v m ∧
      v.display = "(" ++ Value.spaced items ++ ")" ∧
      (∀ a, items = [a] → callBuiltin .car [v] m = .ok a m ∧ callBuiltin .cdr [v] m = .ok a m) ∧
      ∀ a b rest, items = a :: b :: rest → callBuiltin .car [v] m = .ok a m ∧
        callBuiltin .cdr [v] m = callBuiltin .list (b :: rest) m) ∧
    (∀ head tail, ∃ v, callBuiltin .cons [head, tail] m = .ok v m ∧
      callBuiltin .car [v] m = .ok head m ∧ callBuiltin .cdr [v] m = .ok tail m) ∧
    ∀ head heads tail, ∃ v, consAll (head :: heads) tail m = .ok v m ∧
      (¬ tail.IsCell →
        v.display = "(" ++ Value.spaced (head :: heads) ++ " . " ++ tail.display ++ ")") ∧
      ∀ items origin, tail = .list items .cons origin →
        ∃ inside, tail.display = "(" ++ inside ++ ")" ∧
          (items = [] → v.display = "(" ++ Value.spaced (head :: heads) ++ ")") ∧
          (items ≠ [] → v.display =
            "(" ++ Value.spaced (head :: heads) ++ " " ++ inside ++ ")") := by
  refine ⟨fun items => ?_, fun head tail => ?_, fun head heads tail => ?_⟩
  · refine ⟨_, callBuiltin_list m items, Value.display_chain items, ?_, ?_⟩
    · rintro a rfl
      exact ⟨callBuiltin_car m a [] _ _, callBuiltin_cdr m [] a _ _⟩
    · rintro a b rest rfl
      rw [Value.chain_cons_cons, callBuiltin_list]
      exact ⟨callBuiltin_car m a [_] _ _, callBuiltin_cdr m [a] _ _ _⟩
  · exact ⟨_, callBuiltin_cons m head tail, callBuiltin_car m head [tail] _ _,
      callBuiltin_cdr m [head] tail _ _⟩
  · refine ⟨_, consAll_eq m (head :: heads) tail, ?_, ?_⟩
    · intro other
      rw [Value.display_foldr, Value.tailText_of_not_cell other]
      simp only [String.append_assoc]
    · rintro items origin rfl
      refine ⟨Value.inCell items, Value.display_cell items origin, ?_, ?_⟩
      · rintro rfl
        rw [Value.display_foldr, Value.tailText, Value.writeCell, Value.writeItems,
          String.append_empty]
        all_goals simp
      · intro nonempty
        rw [Value.display_foldr, Value.tailText, Value.writeCell_later nonempty]
        simp only [String.append_assoc]

/-- A tail with the text `()` that still adds a space: its only item is a symbol without a name. -/
theorem cons_onto_blank_item :
    (Value.list [.symbol ""] .cons none).display = "()" ∧
      ∃ v, callBuiltin .cons [.int 1, .list [.symbol ""] .cons none] {} = .ok v {} ∧
        v.display = "(1 )" ∧ v.display ≠ "(" ++ Value.spaced [.int 1] ++ ")" := by
  have blank : Value.inCell [.symbol ""] = "" := by
    rw [Value.inCell_singleton, Value.display, Value.write, String.empty_append]
  have one : (Value.int 1).display = "1" := by
    rw [Value.display, Value.write]
    decide
  have text : (Value.cons (.int 1) (.list [.symbol ""] .cons none)).display = "(1 )" := by
    rw [Value.display_cons, Value.tailText, Value.writeCell_later (List.cons_ne_nil _ _), blank,
      one]
    rfl
  have single : Value.spaced [.int 1] = "1" := by
    rw [Value.spaced, List.map_singleton, one, String.intercalate_singleton]
  refine ⟨?_, _, callBuiltin_cons _ _ _, text, ?_⟩
  · rw [Value.display_cell, blank]
    rfl
  · rw [text, single]
    decide

end EvalM

end LazyLisp
