import Mathlib.Data.List.Perm.Subperm
import LazyLisp.Scope

/-!
# The walk to the owner of a name

`Store.owner?` goes outward frame by frame, and stops after as many steps as there are frames. A
walk that finds its goal never needs more: it meets no frame twice, since from a frame there is only
one way on. So `owner?` finds a frame exactly if some walk leads there, whatever its length.

Looking up and assigning are two recursions over the frames. Both have the shape of `Recursion`: a
frame that binds the name ends them, any other passes them on to its parent. What such a recursion
gives is decided by the owner of the name.
-/

namespace LazyLisp.Store

/-- From the frame `id` outward through `path`, the first frame that binds `name` is `owner`. -/
inductive Walk (s : Store) (name : String) : FrameId → List FrameId → FrameId → Prop
  | here {id : FrameId} {f : Frame} :
    s.get? id = some f → f.contains name = true → Walk s name id [id] id
  | outward {id p owner : FrameId} {f : Frame} {path : List FrameId} :
    s.get? id = some f → f.contains name = false → f.parent = some p → Walk s name p path owner →
      Walk s name id (id :: path) owner

variable {s : Store} {name : String} {id owner : FrameId} {path : List FrameId}

theorem Walk.deterministic {path' : List FrameId} {owner' : FrameId}
    (h : s.Walk name id path owner) (h' : s.Walk name id path' owner') :
    path = path' ∧ owner = owner' := by
  induction h generalizing path' with
  | here found binds =>
    cases h' with
    | here => exact ⟨rfl, rfl⟩
    | outward found' binds' _ _ =>
      rw [found] at found'
      cases found'
      rw [binds] at binds'
      cases binds'
  | outward found binds parent _ ih =>
    cases h' with
    | here found' binds' =>
      rw [found] at found'
      cases found'
      rw [binds] at binds'
      cases binds'
    | outward found' _ parent' rest =>
      rw [found] at found'
      cases found'
      rw [parent] at parent'
      cases parent'
      obtain ⟨rfl, rfl⟩ := ih rest
      exact ⟨rfl, rfl⟩

/-- From every frame on the way, a walk that is no longer leads to the same owner. -/
theorem Walk.from_mem {x : FrameId} (h : s.Walk name id path owner) (member : x ∈ path) :
    ∃ path', s.Walk name x path' owner ∧ path'.length ≤ path.length := by
  induction h with
  | here found binds =>
    obtain rfl := List.mem_singleton.1 member
    exact ⟨_, .here found binds, Nat.le_refl _⟩
  | outward found binds parent rest ih =>
    rcases List.mem_cons.1 member with rfl | later
    · exact ⟨_, .outward found binds parent rest, Nat.le_refl _⟩
    · obtain ⟨path', walk, shorter⟩ := ih later
      exact ⟨path', walk, Nat.le_succ_of_le shorter⟩

theorem Walk.nodup (h : s.Walk name id path owner) : path.Nodup := by
  induction h with
  | here => simp
  | outward found binds parent rest ih =>
    refine List.nodup_cons.2 ⟨fun again => ?_, ih⟩
    -- a frame met again would have two ways on, of different lengths
    obtain ⟨path', walk, shorter⟩ := rest.from_mem again
    obtain ⟨rfl, -⟩ := walk.deterministic (.outward found binds parent rest)
    rw [List.length_cons] at shorter
    omega

theorem Walk.mem_lt_size {x : FrameId} (h : s.Walk name id path owner) (member : x ∈ path) :
    x < s.size := by
  have present : ∀ {x : FrameId} {f : Frame}, s.get? x = some f → x < s.size := by
    intro x f found
    exact (Array.getElem?_eq_some_iff.1 found).1
  induction h with
  | here found _ =>
    obtain rfl := List.mem_singleton.1 member
    exact present found
  | outward found _ _ _ ih =>
    rcases List.mem_cons.1 member with rfl | later
    · exact present found
    · exact ih later

theorem Walk.length_le_size (h : s.Walk name id path owner) : path.length ≤ s.size := by
  have within : path ⊆ List.range s.size := fun x member =>
    List.mem_range.2 (h.mem_lt_size member)
  simpa using (h.nodup.subperm within).length_le

theorem ownerWithin_eq_some_iff {steps : Nat} :
    s.ownerWithin name steps id = some owner ↔
      ∃ path, s.Walk name id path owner ∧ path.length ≤ steps := by
  constructor
  · intro found
    induction steps generalizing id with
    | zero => cases found
    | succ steps ih =>
      unfold ownerWithin at found
      split at found
      · cases found
      · next f present =>
        split at found
        · next binds =>
          obtain rfl := Option.some.inj found
          exact ⟨_, .here present binds, by simp⟩
        · next binds =>
          split at found
          · cases found
          · next p parent =>
            obtain ⟨path, walk, short⟩ := ih found
            exact ⟨_, .outward present (Bool.eq_false_iff.2 binds) parent walk,
              Nat.succ_le_succ short⟩
  · rintro ⟨path, walk, short⟩
    induction walk generalizing steps with
    | here present binds =>
      obtain _ | steps := steps
      · simp at short
      · simp [ownerWithin, present, binds]
    | outward present binds parent _ ih =>
      obtain _ | steps := steps
      · simp at short
      · simp [ownerWithin, present, binds, parent, ih (Nat.le_of_succ_le_succ short)]

theorem owner?_eq_some_iff :
    s.owner? id name = some owner ↔ ∃ path, s.Walk name id path owner := by
  unfold owner?
  rw [ownerWithin_eq_some_iff]
  exact ⟨fun ⟨path, walk, _⟩ => ⟨path, walk⟩, fun ⟨path, walk⟩ => ⟨path, walk, walk.length_le_size⟩⟩

/-! ## Frame by frame -/

section

variable {f : Frame} {p : FrameId}

/-- A walk past a frame goes on in its parent. -/
theorem Walk.parent (h : s.Walk name id path owner) (found : s.get? id = some f)
    (unbound : f.contains name = false) :
    ∃ p rest, f.parent = some p ∧ s.Walk name p rest owner := by
  cases h with
  | here found' binds =>
    obtain rfl := Option.some.inj (found.symm.trans found')
    rw [unbound] at binds
    cases binds
  | outward found' _ parent rest =>
    obtain rfl := Option.some.inj (found.symm.trans found')
    exact ⟨_, _, parent, rest⟩

theorem owner?_of_contains (found : s.get? id = some f) (binds : f.contains name = true) :
    s.owner? id name = some id :=
  owner?_eq_some_iff.2 ⟨_, .here found binds⟩

theorem owner?_of_parent (found : s.get? id = some f) (unbound : f.contains name = false)
    (parent : f.parent = some p) : s.owner? id name = s.owner? p name := by
  apply Option.ext
  intro owner
  rw [owner?_eq_some_iff, owner?_eq_some_iff]
  constructor
  · rintro ⟨path, walk⟩
    obtain ⟨p', rest, parent', walk'⟩ := walk.parent found unbound
    obtain rfl := Option.some.inj (parent.symm.trans parent')
    exact ⟨rest, walk'⟩
  · rintro ⟨path, walk⟩
    exact ⟨id :: path, .outward found unbound parent walk⟩

theorem owner?_of_root (found : s.get? id = some f) (unbound : f.contains name = false)
    (parent : f.parent = none) : s.owner? id name = none := by
  rw [Option.eq_none_iff_forall_ne_some]
  intro owner owned
  obtain ⟨path, walk⟩ := owner?_eq_some_iff.1 owned
  obtain ⟨p, _, parent', _⟩ := walk.parent found unbound
  rw [parent] at parent'
  cases parent'

end

/-- `walk` answers as a recursion over the frames does: a frame that binds `name` answers `found`, a
root that does not answers `missing`, and any other frame passes the question on to its parent. -/
structure Recursion {β : Type} (s : Store) (name : String) (found : FrameId → β) (missing : β)
    (walk : FrameId → β) : Prop where
  here : ∀ {id f}, s.get? id = some f → f.contains name = true → walk id = found id
  outward : ∀ {id f p}, s.get? id = some f → f.contains name = false → f.parent = some p →
    walk id = walk p
  root : ∀ {id f}, s.get? id = some f → f.contains name = false → f.parent = none →
    walk id = missing

/-- What the owner decides is found by recursion. -/
theorem recursion_of_owner? {β : Type} {found : FrameId → β} {missing : β} {walk : FrameId → β}
    (decides : ∀ id, walk id = (s.owner? id name).elim missing found) :
    s.Recursion name found missing walk where
  here present binds := by rw [decides, owner?_of_contains present binds, Option.elim_some]
  outward present unbound parent := by
    rw [decides, decides, owner?_of_parent present unbound parent]
  root present unbound parent := by
    rw [decides, owner?_of_root present unbound parent, Option.elim_none]

/-- More steps than there are frames find nothing new. -/
theorem ownerWithin_of_size_le {steps : Nat} (h : s.size ≤ steps) :
    s.ownerWithin name steps id = s.owner? id name := by
  apply Option.ext
  intro owner
  rw [owner?_eq_some_iff, ownerWithin_eq_some_iff]
  constructor
  · rintro ⟨path, walk, -⟩
    exact ⟨path, walk⟩
  · rintro ⟨path, walk⟩
    exact ⟨path, walk, Nat.le_trans walk.length_le_size h⟩

/-- A name is found where its owner binds it. -/
theorem lookup?_eq_some_iff {env : FrameId} {b : Binding} :
    s.lookup? env name = some (b, owner) ↔
      s.owner? env name = some owner ∧ s.binding? owner name = some b := by
  constructor
  · intro found
    obtain ⟨owner', walked, found⟩ := Option.bind_eq_some_iff.1 found
    obtain ⟨b', held, same⟩ := Option.bind_eq_some_iff.1 found
    cases same
    exact ⟨walked, held⟩
  · rintro ⟨walked, held⟩
    unfold lookup?
    rw [walked]
    show (s.binding? owner name >>= fun b => some (b, owner)) = some (b, owner)
    rw [held]
    rfl

end LazyLisp.Store
