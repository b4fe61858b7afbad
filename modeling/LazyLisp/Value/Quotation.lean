import LazyLisp.Value.Basic

/-!
# Quotation

`quoted` turns program text into data: every code list becomes a quoted list, so that no part of it
is applied later. Lists that are data already are left alone, with everything inside them.
-/

namespace LazyLisp.Value

mutual

/-- The value as data. -/
def quoted : Value → Value
  | .list items .code origin => .list (quotedOnto [] items) .quoted origin
  | v => v

/-- The values as data, in order, after those already done (last one first). -/
def quotedOnto (done : List Value) : List Value → List Value
  | [] => done.reverse
  | v :: vs => quotedOnto (quoted v :: done) vs

end

theorem quotedOnto_eq (done vs : List Value) :
    quotedOnto done vs = done.reverse ++ vs.map quoted := by
  induction vs generalizing done with
  | nil => simp [quotedOnto]
  | cons v vs ih => simp [quotedOnto, ih]

theorem quoted_code (items : List Value) (origin : Option NodeId) :
    quoted (.list items .code origin) = .list (items.map quoted) .quoted origin := by
  simp [quoted, quotedOnto_eq]

end LazyLisp.Value
