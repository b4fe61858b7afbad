import LazyLisp.Proofs.Descent
import LazyLisp.Proofs.Spelling

/-!
# The reader accepts exactly its grammar

Tokens can be read if and only if their parentheses are balanced and no integer literal is too
large. What is read says again what the tokens said. What cannot be read is reported at the first
token that cannot be right, whatever follows it; if every token could be right, it is the end that
comes too early, and the report names the innermost list still open.
-/

namespace LazyLisp.Reader

/-- The offset at which tokens end. -/
def lastStop (tokens : List Token) : Nat := (tokens.getLast?.map fun t => t.span.stop).getD 0

theorem parse_eq (tokens : List Token) :
    parse tokens =
      match readTokens tokens (lastStop tokens) {} with
      | .ok program tree => .ok (program, tree)
      | .error d _ => .error d := rfl

theorem parse_eq_ok_iff {tokens : List Token} {program : Value} {tree : SourceTree} :
    parse tokens = .ok (program, tree) ↔
      readTokens tokens (lastStop tokens) {} = .ok program tree := by
  rw [parse_eq]
  cases readTokens tokens (lastStop tokens) {} <;> simp

theorem parse_eq_error_iff {tokens : List Token} {d : Diagnostic} :
    parse tokens = .error d ↔ ∃ tree, readTokens tokens (lastStop tokens) {} = .error d tree := by
  rw [parse_eq]
  cases readTokens tokens (lastStop tokens) {} <;> simp

theorem Clean.no_firstOffence {tokens : List Token} (h : Clean tokens) (t : Token) :
    ¬ FirstOffence tokens t := by
  rintro ⟨before, after, split, offence, -⟩
  exact h before t after split offence

/-- The descent ends as `parse` does, with a program or a report. -/
theorem descent_parse (tokens : List Token) :
    Descent.program tokens (lastStop tokens) {} = (parse tokens).mapError .report := by
  rw [Descent.program_eq, parse_eq]
  cases readTokens tokens (lastStop tokens) {} <;> rfl

/-- **The reader accepts exactly its grammar and loses nothing.** Tokens are read if and only if
every prefix opens at least as many lists as it closes, the whole opens as many as it closes, and no
atom is an integer literal that is too large. What is read is written back as what the tokens say.
Otherwise the report stands at the first token that closes a list where none is open or is too large
a literal; if there is none, at the last token that opens a list which is never closed. And a
recursive descent, which takes its tokens by position, comes to the same end without ever asking for
a token at a position where there is none. -/
theorem parse_iff_balanced (tokens : List Token) :
    ((∃ program tree, parse tokens = .ok (program, tree)) ↔
        (∀ p, p <+: tokens → closings p ≤ openings p) ∧ openings tokens = closings tokens ∧
          ∀ t ∈ tokens, t.kind = .atom → ¬ TooLarge t.lexeme) ∧
      (∀ program tree, parse tokens = .ok (program, tree) → ∃ items origin,
        program = .list items .code origin ∧ Spells tokens (Value.piecesAll items)) ∧
      (∀ d, parse tokens = .error d → d.kind = .reading ∧
        ((∃ t, FirstOffence tokens t ∧ d.span = some t.span) ∨
          (∀ t, ¬ FirstOffence tokens t) ∧ ∃ t, LastUnmatched tokens t ∧ d.span = some t.span)) ∧
      Descent.program tokens (lastStop tokens) {} = (parse tokens).mapError .report := by
  have cases := readTokens_cases tokens (lastStop tokens) {}
  refine ⟨?_, fun program tree read => ?_, fun d failed => ?_, descent_parse tokens⟩
  · simp only [parse_eq_ok_iff]
    rw [exists_readTokens_iff]
    constructor
    · rintro ⟨balanced, fit⟩
      exact ⟨balanced.ahead, balanced.even.symm, fit⟩
    · rintro ⟨ahead, even, fit⟩
      exact ⟨⟨ahead, even.symm⟩, fit⟩
  · rw [parse_eq_ok_iff] at read
    rcases cases with ⟨_, _, again, accepted⟩ | ⟨d, _, again, -⟩
    · obtain ⟨rfl, rfl⟩ := EStateM.Result.ok.inj (read.symm.trans again)
      obtain ⟨items, same, recorded⟩ := accepted.recorded
      exact ⟨items, _, same, recorded.spells⟩
    · rw [read] at again
      cases again
  · obtain ⟨tree, failed⟩ := parse_eq_error_iff.1 failed
    rcases cases with ⟨_, _, again, -⟩ | ⟨_, _, again, refused⟩
    · rw [failed] at again
      cases again
    · obtain ⟨rfl, rfl⟩ := EStateM.Result.error.inj (failed.symm.trans again)
      refine ⟨refused.kind, ?_⟩
      rcases refused.place with offence | ⟨clean, unmatched⟩
      · exact .inl offence
      · exact .inr ⟨clean.no_firstOffence, unmatched⟩

/-- Of `())` the last token is at fault, though the tokens before it can be read. -/
theorem parse_iff_balanced_stray :
    let tokens : List Token :=
      [⟨.opening, "(", ⟨0, 1⟩⟩, ⟨.closing, ")", ⟨1, 2⟩⟩, ⟨.closing, ")", ⟨2, 3⟩⟩]
    let d := Fault.strayClosing.diagnosticAt ⟨2, 3⟩
    parse tokens = .error d ∧ d.kind = .reading ∧
      ((∃ t, FirstOffence tokens t ∧ d.span = some t.span) ∨
        (∀ t, ¬ FirstOffence tokens t) ∧ ∃ t, LastUnmatched tokens t ∧ d.span = some t.span) := by
  intro tokens d
  have failed : parse tokens = .error d := rfl
  exact ⟨failed, (parse_iff_balanced tokens).2.2.1 d failed⟩

end LazyLisp.Reader
