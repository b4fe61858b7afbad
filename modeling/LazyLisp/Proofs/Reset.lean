import LazyLisp.Proofs.Calls
import LazyLisp.Proofs.Simulation.Eval
import LazyLisp.Proofs.Simulation.Reader
import LazyLisp.Proofs.TreeNumber
import LazyLisp.Repl

/-!
# A reset forgets everything

After a reset a session answers every sequence of calls as a new one does, whatever was done before.
The two are not equal: the older one still holds its frames, its closures and the values it has
shown, and numbers new ones and its source trees after those. So the new session is simulated by
the older one, with every number moved by what the `Past` of the older one used up, and the numbers
do not show in what a user sees.
-/

namespace LazyLisp

/-- New root frames correspond: what they bind has nothing inside it. -/
theorem Simulation.root_related (S : Simulation) :
    S.Frames { bindings := rootBindings } { bindings := rootBindings } := by
  refine ⟨.none, List.forall₂_same.2 fun entry member => ⟨rfl, fun _ => ?_⟩⟩
  obtain ⟨b, bound⟩ | ⟨b, bound⟩ := value_of_mem_rootBindings member
  · rw [bound]
    exact .value (S.value_atom rfl)
  · rw [bound]
    exact .value (S.value_atom rfl)

/-- What a session has used up before a reset: tree numbers, frames and closures, and the values it
has shown. -/
structure Past where
  trees : UInt32
  frames : Nat
  closures : Nat
  shown : List Value

/-- What a session has used up so far. -/
def Session.past (s : Session) : Past where
  trees := s.nextTree
  frames := s.memory.store.size
  closures := s.memory.closures
  shown := s.memory.output.toList

namespace Past

variable (p : Past)

/-- Every number is moved by as many as were used up. -/
def shift : Renaming where
  origin o o' := o' = o.map (.moved p.trees)
  frame i i' := i' = i + p.frames
  closure i i' := i' = i + p.closures
  origin_none := (Option.map_none _).symm
  frame_iff := by rintro a _ b _ rfl rfl; exact Nat.add_right_cancel_iff.symm
  closure_iff := by rintro a _ b _ rfl rfl; exact Nat.add_right_cancel_iff.symm

/-- The values and reports of a new session, beside those of one with this past. -/
def simulation : Simulation := p.shift.simulation Eq Eq.refl p.shown

/-- The second session stands where the first does, after the past `p`. -/
structure Later (s s' : Session) : Prop where
  limit : s.limit = s'.limit
  memory : p.simulation.Memories 0 s.memory s'.memory
  global : s'.global = s.global + p.frames
  tree : s'.tree = s.tree.moved p.trees
  nextTree : s'.nextTree = s.nextTree + p.trees

variable {p}

theorem contexts (limit : Nat) (tree : SourceTree) :
    p.simulation.Contexts ⟨limit, tree⟩ ⟨limit, tree.moved p.trees⟩ where
  limit := rfl
  annotate := by
    rintro origin _ d _ rfl rfl
    exact (Context.annotate_moved p.trees ⟨limit, tree⟩ origin d).symm

/-- A source read into a tree, beside the same source read into the tree moved by `p`. -/
def reading (p : Past) : Reader.Correspondence where
  node id id' := id' = id.moved p.trees
  tree t t' := t' = t.moved p.trees
  value := Value.Like p.shift
  tree_next := by
    rintro t _ rfl
    exact t.nextId_moved p.trees
  tree_push := by
    rintro t _ parent parent' span rfl related
    have same : parent' = parent.map (.moved p.trees) := by
      obtain ⟨rfl, rfl⟩ | ⟨a, b, rfl, rfl, moved⟩ := optionRel_cases related
      · rfl
      · rw [Option.map_some, moved]
    rw [same, t.push_moved]
  tree_close := by
    rintro t _ id _ stop head rfl rfl
    exact t.close_moved p.trees id stop head
  value_int := .int
  value_symbol := .symbol
  value_list items moved := .list items (congrArg some moved)
  value_name h := by cases h <;> rfl

/-! ## The three operations under all calls -/

/-- A session after a reset stands where a new one does. -/
theorem later_new (s : Session) : s.past.Later (.new s.limit) s.reset where
  limit := rfl
  memory := by
    -- nothing corresponds yet: the new memory is empty, and the other has no frame past its size
    have empty : s.past.simulation.Memories 0 {} { s.memory with depth := 0 } := by
      refine ⟨?_, fun k => ?_, fun k => ?_, ⟨[], ?_, .nil⟩, rfl, rfl⟩
      · rintro id _ rfl
        have missing : s.memory.store.get? (id + s.memory.store.size) = none := by
          simp [Store.get?, Store.size]
        exact missing.symm ▸ .none
      · change s.memory.store.size + k = 0 + k + s.memory.store.size
        omega
      · change s.memory.closures + k = 0 + k + s.memory.closures
        omega
      · exact (List.append_nil _).symm
    exact empty.push (Simulation.root_related _)
  global := (Nat.zero_add _).symm
  tree := by simp [Session.reset, Session.new, SourceTree.moved, Session.past]
  nextTree := UInt32.add_comm _ _

theorem Later.reset {s s' : Session} (h : p.Later s s') : p.Later s.reset s'.reset where
  limit := h.limit
  memory := (h.memory.push (Simulation.root_related _)).withDepth 0
  global := h.memory.fresh 0
  tree := by simp [Session.reset, SourceTree.moved, h.nextTree]
  nextTree := by
    change s'.nextTree + 1 = s.nextTree + 1 + p.trees
    rw [h.nextTree, UInt32.add_assoc, UInt32.add_assoc, UInt32.add_comm 1]

theorem Later.emit {s s' : Session} {v v' : Value} (h : p.Later s s')
    (hv : v.Like p.shift v') : p.Later (s.emit v) (s'.emit v') :=
  ⟨h.limit, h.memory.emit hv, h.global, h.tree, h.nextTree⟩

theorem Later.evalProgram {s s' : Session} {program program' : Value} (h : p.Later s s')
    (hprogram : program.Like p.shift program') :
    Session.Alike p.Later (Value.Like p.shift) (s.evalProgram program s.global)
      (s'.evalProgram program' s'.global) := by
  have evaluators : p.simulation.Evaluators 0 (eval ⟨s.limit, s.tree⟩ s.limit)
      (eval ⟨s.limit, s.tree.moved p.trees⟩ s.limit) :=
    Simulation.eval_related (contexts s.limit s.tree) rfl
  have frame : p.simulation.frame s.global s'.global := h.global
  have outcomes := Simulation.program_related evaluators frame hprogram
    (fun alike => by cases alike with | list items _ => exact items) s.memory s'.memory h.memory
  simp only [Session.evalProgram, Session.perform_eq, Session.context, h.tree, ← h.limit]
  unfold LazyLisp.evalProgram
  obtain ⟨v, v', m, m', e, e', values, after⟩ | ⟨d, d', m, m', e, e', reports, after⟩ :=
    outcomes.cases
  · rw [e, e']
    exact ⟨.ok values, rfl, after, h.global, rfl, h.nextTree⟩
  · rw [e, e', show d = d' from reports]
    exact ⟨.error d', rfl, after, h.global, rfl, h.nextTree⟩

theorem Later.evalSource {s s' : Session} (h : p.Later s s') (source : String) :
    Session.Alike p.Later (Value.Like p.shift) (s.evalSource source) (s'.evalSource source) := by
  have outcomes := p.reading.readProgram_related source s.tree s'.tree h.tree
  rw [Session.evalSource_eq, Session.evalSource_eq]
  obtain ⟨v, v', t, t', e, e', programs, trees⟩ | ⟨d, d', t, t', e, e', reports, trees⟩ :=
    outcomes.cases
  · rw [e, e']
    exact Later.evalProgram ⟨h.limit, h.memory, h.global, trees, h.nextTree⟩ programs
  · rw [e, e', reports]
    exact ⟨.error d', h.limit, h.memory, h.global, trees, h.nextTree⟩

theorem bisimulation (p : Past) : Session.Bisimulation p.Later (Value.Like p.shift) :=
  ⟨Later.reset, Later.evalSource, Later.emit⟩

end Past

/-! ## What a user sees -/

/-- Both texts of a value. -/
structure Rendered where
  display : String
  debug : String
  deriving DecidableEq, Repr

/-- The value as it is printed. -/
def Value.rendered (v : Value) : Rendered := ⟨v.display, v.debug⟩

theorem Value.Like.rendered {r : Renaming} {v v' : Value} (h : v.Like r v') :
    v.rendered = v'.rendered := by
  simp only [Value.rendered, h.display, h.debug]

namespace Session

/-- What a user sees of a call: its value or its report, and the values it shows. -/
structure Answer where
  result : Option (Except Diagnostic Rendered)
  shown : List Rendered

/-- The values shown between two states of a session. -/
def shownSince (s before : Session) : List Value :=
  s.memory.output.toList.drop before.memory.output.size

theorem shownSince_self (s : Session) : s.shownSince s = [] := by
  simp [shownSince]

/-- What a user sees of a call on `s`. -/
def answer (s : Session) (c : Call) : Answer where
  result := (s.call c).1.map (·.map Value.rendered)
  shown := ((s.call c).2.shownSince s).map Value.rendered

/-- What a user sees of calls one after the other. -/
def answers (s : Session) : List Call → List Answer
  | [] => []
  | c :: calls => s.answer c :: (s.call c).2.answers calls

end Session

namespace Past

variable {p : Past} {s s' : Session}

/-- What has been shown since corresponding states is alike, whatever was shown before them. -/
theorem Later.shownSince {before before' : Session} (hbefore : p.Later before before')
    (h : p.Later s s') :
    List.Forall₂ (Value.Like p.shift) (s.shownSince before) (s'.shownSince before') := by
  obtain ⟨old, oldSplit, oldAlike⟩ := hbefore.memory.output
  obtain ⟨shown, split, alike⟩ := h.memory.output
  have size : before'.memory.output.size = p.shown.length + before.memory.output.size := by
    rw [← Array.length_toList, oldSplit, List.length_append, ← oldAlike.length_eq,
      Array.length_toList]
    rfl
  unfold Session.shownSince
  rw [split, size]
  change List.Forall₂ _ _ ((p.shown ++ shown).drop _)
  rw [List.drop_length_add_append]
  exact List.forall₂_drop _ alike

theorem Later.answer (h : p.Later s s') (c : Session.Call) : s.answer c = s'.answer c := by
  obtain ⟨results, after⟩ := p.bisimulation.call h c
  have result : (s.call c).1.map (·.map Value.rendered) =
      (s'.call c).1.map (·.map Value.rendered) := by
    obtain ⟨e, e'⟩ | ⟨a, b, e, e', related⟩ := optionRel_cases results
    · rw [e, e']
    · rw [e, e', Option.map_some, Option.map_some,
        related.map_eq fun _ _ alike => alike.rendered]
  have shown := map_eq_of_related (fun _ _ alike => alike.rendered) (h.shownSince after)
  simp only [Session.answer, result, shown]

theorem Later.answers (h : p.Later s s') (calls : List Session.Call) :
    s.answers calls = s'.answers calls := by
  induction calls generalizing s s' with
  | nil => rfl
  | cons c calls ih =>
    have rest := ih (p.bisimulation.call h c).2
    rw [Session.answers, Session.answers, h.answer c, rest]

/-! ## The interactive loop -/

theorem Later.evaluate (h : p.Later s s') (source : String) :
    (Repl.evaluate s source).1 = (Repl.evaluate s' source).1 ∧
      p.Later (Repl.evaluate s source).2 (Repl.evaluate s' source).2 := by
  obtain ⟨result, after⟩ := h.evalSource source
  have shown : (s.evalSource source).2.shownAfter s.memory.output.size =
      (s'.evalSource source).2.shownAfter s'.memory.output.size :=
    map_eq_of_related (fun _ _ alike => alike.display) (h.shownSince after)
  unfold Repl.evaluate
  obtain ⟨v, v', e, e', values⟩ | ⟨d, e, e'⟩ := result.cases
  · simp only [e, e', shown, values.isVoid, values.display]
    exact ⟨trivial, after⟩
  · simp only [e, e', shown]
    exact ⟨trivial, after⟩

/-- After a read both loops have written the same, and go on alike or end with the same code. -/
theorem Later.respond (h : p.Later s s') (read : Repl.Read) :
    (∃ w t t', Repl.respond s read = (w, .goOn t) ∧ Repl.respond s' read = (w, .goOn t') ∧
        p.Later t t') ∨
      ∃ w code, Repl.respond s read = (w, .exit code) ∧ Repl.respond s' read = (w, .exit code) := by
  cases read with
  | line text =>
    simp only [Repl.respond]
    cases Repl.Command.ofLine text with
    | quit => exact .inr ⟨_, _, rfl, rfl⟩
    | reset => exact .inl ⟨_, _, _, rfl, rfl, h.reset⟩
    | skip => exact .inl ⟨_, _, _, rfl, rfl, h⟩
    | eval source =>
      obtain ⟨same, after⟩ := h.evaluate source
      exact .inl ⟨_, _, _, rfl, by rw [same], after⟩
  | interrupted => exact .inr ⟨_, _, rfl, rfl⟩
  | ended => exact .inr ⟨_, _, rfl, rfl⟩
  | failed message => exact .inr ⟨_, _, rfl, rfl⟩

theorem Later.transcript (h : p.Later s s') (reads : List Repl.Read) :
    Repl.transcript s reads = Repl.transcript s' reads := by
  induction reads generalizing s s' with
  | nil => rfl
  | cons read reads ih =>
    unfold Repl.transcript
    obtain ⟨w, t, t', e, e', later⟩ | ⟨w, code, e, e'⟩ := h.respond read
    · simp only [e, e', ih later]
    · simp only [e, e']

end Past

namespace Session

/-- A `run` and the calls that follow it, seen from a new session: it evaluates the source there. -/
theorem answers_run (s : Session) (source : String) (calls : List Call) :
    let fresh := Session.new s.limit
    let outcome := fresh.evalAndShow source
    s.answers (.run source :: calls) =
      ⟨some (outcome.1.map Value.rendered), (outcome.2.shownSince fresh).map Value.rendered⟩ ::
        outcome.2.answers calls := by
  intro fresh outcome
  have later : s.past.Later fresh s.reset := Past.later_new s
  obtain ⟨result, after⟩ := s.past.bisimulation.evalAndShow later source
  have shown := map_eq_of_related (fun _ _ alike => alike.rendered) (later.shownSince after)
  rw [after.answers calls, result.map_eq fun _ _ alike => alike.rendered, shown]
  rfl

/-- **A reset forgets everything.** Whatever state a session is in, after a reset any further calls
are answered as on a new session: with the same values as printed, the same reports with their
places and notes, and the same values shown. A `run` starts with a reset, so nothing done before it
has a part in its answer or in what follows it; nor has it in the answer of a `runBytes`. And after
a line that asks for a reset the interactive loop goes on as a new one, whatever its reads give. -/
theorem reset_isolates (s : Session) :
    (∀ calls, s.reset.answers calls = (Session.new s.limit).answers calls) ∧
      (∀ source calls, s.answers (.run source :: calls) =
        (Session.new s.limit).answers (.run source :: calls)) ∧
      (∀ bytes, s.answer (.runBytes bytes) = (Session.new s.limit).answer (.runBytes bytes)) ∧
      ∀ line reads, Repl.Command.ofLine line = .reset →
        let fresh := Repl.transcript (Session.new s.limit) reads
        Repl.transcript s (.line line :: reads) = ({} :: fresh.1, fresh.2) := by
  have runs : ∀ source calls, s.answers (.run source :: calls) =
      (Session.new s.limit).answers (.run source :: calls) := fun source calls =>
    (answers_run s source calls).trans (answers_run (Session.new s.limit) source calls).symm
  refine ⟨fun calls => ((Past.later_new s).answers calls).symm, runs, fun bytes => ?_, ?_⟩
  · simp only [answer, call, runBytes]
    cases Utf8.decode bytes with
    | error d => simp only [shownSince_self]
    | ok source => exact (List.cons.inj (runs source [])).1
  · intro line reads isReset
    have responded : Repl.respond s (.line line) = ({}, .goOn s.reset) := by
      simp only [Repl.respond, isReset]
    rw [Repl.transcript, responded, (Past.later_new s).transcript]

/-- After `x` was defined a line with `x` finds it; after a reset the line finds what it finds in a
new loop, which is nothing. -/
theorem reset_isolates_definition :
    let s := (Session.new 5).after [.evalSource "(define x 1)"]
    let reads := [.line "x", .ended]
    let fresh := Repl.transcript (Session.new s.limit) reads
    (Repl.transcript s reads).1.map Written.err = ["", ""] ∧
      Repl.transcript s (.line ":reset" :: reads) = ({} :: fresh.1, fresh.2) ∧
      fresh.1.map Written.err ≠ ["", ""] :=
  ⟨by decide +kernel, (reset_isolates _).2.2.2 ":reset" _ (by decide +kernel), by decide +kernel⟩

end Session

end LazyLisp
