import LazyLisp.Decimal.Float
import LazyLisp.Value.Basic

/-!
# The text of values

`display` writes a value the way a program would: code and quoted lists between parentheses, a
chain of cells as one flat list with a dot before a tail that is no cell. `debug` also shows the
tags of lists and marks symbols. Both write to the end of a text that is passed along, so that long
lists are written in one go.
-/

namespace LazyLisp.Value

/-- What stands before the next item: nothing before the first one, else a space. -/
def gap (first : Bool) : String := if first then "" else " "

mutual

/-- Appends the text of a value to `out`. -/
def write (out : String) : Value → String
  | .void => out ++ "#<void>"
  | .bool true => out ++ "#t"
  | .bool false => out ++ "#f"
  | .int n => out ++ n.toInt.repr
  | .float x => out ++ Decimal.floatText x
  | .symbol name => out ++ name
  | .list items .cons _ => writeCell (out ++ "(") true items ++ ")"
  | .list items _ _ => writeItems (out ++ "(") true items ++ ")"
  | .builtin b => out ++ "#<builtin " ++ b.name ++ ">"
  | .closure .. => out ++ "#<function>"

/-- Appends the items of a list, with a space between any two. -/
def writeItems (out : String) (first : Bool) : List Value → String
  | [] => out
  | v :: vs => writeItems (write (out ++ gap first) v) false vs

/-- Appends the items of a cell and of the cells that follow it as its tail. -/
def writeCell (out : String) (first : Bool) : List Value → String
  | [head, .list items .cons _] => writeCell (write (out ++ gap first) head) false items
  | [head, tail] => write (write (out ++ gap first) head ++ " . ") tail
  | items => writeItems out first items

end

/-- The text of a value. -/
def display (v : Value) : String := v.write ""

/-- Writing leaves what was written before as it is. -/
theorem writes_append (before : String) :
    (∀ out v, write (before ++ out) v = before ++ write out v) ∧
      (∀ out first vs, writeItems (before ++ out) first vs = before ++ writeItems out first vs) ∧
      ∀ out first vs, writeCell (before ++ out) first vs = before ++ writeCell out first vs := by
  apply write.mutual_induct
    (fun out v => write (before ++ out) v = before ++ write out v)
    (fun out first vs => writeItems (before ++ out) first vs = before ++ writeItems out first vs)
    (fun out first vs => writeCell (before ++ out) first vs = before ++ writeCell out first vs)
  case case8 =>
    intro out items tag origin notCons ih
    cases tag <;> simp_all [write, String.append_assoc]
  all_goals intros; simp_all [write, writeItems, writeCell, String.append_assoc]

theorem write_eq (out : String) (v : Value) : write out v = out ++ v.display := by
  simpa [display] using (writes_append out).1 "" v

mutual

/-- Appends the text of a value, with tags, to `out`. -/
def writeDebug (out : String) : Value → String
  | .symbol name => out ++ "Symbol(" ++ name ++ ")"
  | .list items tag _ => writeDebugItems (out ++ tag.text ++ "[") true items ++ "]"
  | v => v.write out

/-- Appends the items of a list, with a comma and a space between any two. -/
def writeDebugItems (out : String) (first : Bool) : List Value → String
  | [] => out
  | v :: vs => writeDebugItems (writeDebug (if first then out else out ++ ", ") v) false vs

end

/-- The text of a value that also shows the tags of its lists. -/
def debug (v : Value) : String := v.writeDebug ""

end LazyLisp.Value
