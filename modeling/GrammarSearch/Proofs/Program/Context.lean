import GrammarSearch.Proofs.Program.Editing
import GrammarSearch.Proofs.Program.Preorder

/-!
# Contexts

A context is a program with one part cut out. Where a path leads in a program there is a context
that does not depend on the part at the path (`Program.subtree?_eq_some_iff`), and a replacement
fills the same context with another part (`Program.replace?_eq_some_iff`). So what the context keeps
is the same before and after: in prefix notation the labels before the part and those after it
(`Context.labels_plug`). From this follow the laws of reading and replacing at a path
(`Program.editing_lawful`), and which labels a program has (`Program.mem_labels_iff`).
-/

namespace GrammarSearch

/-- A part that a whole may have: to put a part into a whole is possible exactly if the whole has
one, and it is what is read there afterwards; the part that is there already changes nothing, and
of two parts put there the second counts. -/
structure IsLens {α β : Type} (get : α → Option β) (set : α → β → Option α) : Prop where
  exists_set_iff : ∀ whole part,
    (∃ edited, set whole part = some edited) ↔ ∃ old, get whole = some old
  get_set : ∀ whole part edited, set whole part = some edited → get edited = some part
  set_get : ∀ whole old, get whole = some old → set whole old = some whole
  set_set : ∀ whole part edited other,
    set whole part = some edited → set edited other = set whole other

namespace Program

/-- A program with one part cut out. -/
inductive Context
  /-- The part is the whole program. -/
  | hole
  /-- The part is inside of a child, which has some children before it and some after it. -/
  | inside (symbol : String) (before : List Program) (context : Context) (after : List Program)

namespace Context

/-- The program with a part put where one was cut out. -/
def plug : Context → Program → Program
  | .hole, part => part
  | .inside symbol before context after, part =>
    .node symbol (before ++ context.plug part :: after)

/-- The path to the part. -/
def path : Context → List Nat
  | .hole => []
  | .inside _ before context _ => before.length :: context.path

/-- The labels that come before those of the part in pre-order. -/
def labelsBefore : Context → List (String × Nat)
  | .hole => []
  | .inside symbol before context after =>
    (symbol, before.length + (after.length + 1)) :: (labelsList before ++ context.labelsBefore)

/-- The labels that come after those of the part in pre-order. -/
def labelsAfter : Context → List (String × Nat)
  | .hole => []
  | .inside _ _ context after => context.labelsAfter ++ labelsList after

end Context

variable {p q part old replacement : Program} {path other : List Nat} {label : String × Nat}

/-! ## Filling a context -/

theorem labelsList_append (ps qs : List Program) :
    labelsList (ps ++ qs) = labelsList ps ++ labelsList qs := by
  induction ps with
  | nil => rfl
  | cons p ps ih => rw [List.cons_append, labelsList, labelsList, ih, List.append_assoc]

namespace Context

/-- The labels of the part are a block in the prefix notation of the whole. -/
theorem labels_plug (c : Context) (part : Program) :
    (c.plug part).labels = c.labelsBefore ++ part.labels ++ c.labelsAfter := by
  induction c with
  | hole => rw [plug, labelsBefore, labelsAfter, List.nil_append, List.append_nil]
  | inside symbol before context after ih =>
    rw [plug, labels, labelsList_append, labelsList, ih, labelsBefore, labelsAfter,
      List.length_append, List.length_cons]
    simp only [List.cons_append, List.append_assoc]

theorem subtree?_plug (c : Context) (part : Program) :
    (c.plug part).subtree? c.path = some part := by
  induction c with
  | hole => exact subtree?_nil part
  | inside symbol before context after ih =>
    have at_gap : (before ++ context.plug part :: after)[before.length]? = some (context.plug part) :=
      by simp
    rw [path, subtree?_cons, plug, children, at_gap, Option.bind_some, ih]

/-- To replace the part is to fill the context with another one. -/
theorem replace?_plug (c : Context) (part replacement : Program) :
    (c.plug part).replace? c.path replacement = some (c.plug replacement) := by
  induction c with
  | hole => exact replace?_nil part replacement
  | inside symbol before context after ih =>
    refine replace?_cons_eq_some.2 ⟨context.plug part, context.plug replacement, ?_, ih, ?_⟩
    · rw [plug, children]
      simp
    · rw [plug, plug, Program.symbol, children]
      simp

end Context

/-! ## The context of a part -/

theorem exists_context (found : p.subtree? path = some part) :
    ∃ c : Context, c.path = path ∧ c.plug part = p := by
  induction path generalizing p with
  | nil =>
    rw [subtree?_nil, Option.some.injEq] at found
    exact ⟨.hole, rfl, found.symm⟩
  | cons i path ih =>
    rw [subtree?_cons, Option.bind_eq_some_iff] at found
    obtain ⟨child, at_i, inside⟩ := found
    obtain ⟨c, rfl, rfl⟩ := ih inside
    obtain ⟨bound, here⟩ := List.getElem?_eq_some_iff.1 at_i
    refine ⟨.inside p.symbol (p.children.take i) c (p.children.drop (i + 1)), ?_, ?_⟩
    · rw [Context.path, List.length_take, Nat.min_eq_left (Nat.le_of_lt bound)]
    · rw [Context.plug, ← here, List.getElem_cons_drop, List.take_append_drop]
      cases p
      rfl

/-- A part stands at a path exactly if the program is a context, with this path, of the part. -/
theorem subtree?_eq_some_iff :
    p.subtree? path = some part ↔ ∃ c : Context, c.path = path ∧ c.plug part = p := by
  constructor
  · exact exists_context
  · intro surrounded
    obtain ⟨c, rfl, rfl⟩ := surrounded
    exact c.subtree?_plug part

/-- A program is edited by putting the replacement in the context of the part that was there. -/
theorem replace?_eq_some_iff :
    p.replace? path replacement = some q ↔
      ∃ (c : Context) (old : Program), c.path = path ∧ c.plug old = p ∧
        c.plug replacement = q := by
  constructor
  · intro replaced
    have some_part : (p.subtree? path).isSome = true := by
      rw [← isSome_replace? p path replacement, replaced, Option.isSome_some]
    obtain ⟨old, found⟩ := Option.isSome_iff_exists.1 some_part
    obtain ⟨c, rfl, rfl⟩ := exists_context found
    rw [c.replace?_plug, Option.some.injEq] at replaced
    exact ⟨c, old, rfl, rfl, replaced⟩
  · intro filled
    obtain ⟨c, old, rfl, rfl, rfl⟩ := filled
    exact c.replace?_plug old replacement

/-! ## Nodes -/

mutual

theorem exists_path_of_mem_labels :
    ∀ {p : Program}, label ∈ p.labels → ∃ path, p.rootLabel? path = some label
  | .node symbol children, member => by
      rcases List.mem_cons.1 member with rfl | below
      · exact ⟨[], rfl⟩
      · obtain ⟨i, child, path, at_i, found⟩ := exists_path_of_mem_labelsList below
        refine ⟨i :: path, ?_⟩
        rw [rootLabel?, subtree?_cons, Program.children, at_i]
        exact found

theorem exists_path_of_mem_labelsList :
    ∀ {ps : List Program}, label ∈ labelsList ps →
      ∃ (i : Nat) (child : Program) (path : List Nat),
        ps[i]? = some child ∧ child.rootLabel? path = some label
  | p :: ps, member => by
      rcases List.mem_append.1 member with here | later
      · obtain ⟨path, found⟩ := exists_path_of_mem_labels here
        exact ⟨0, p, path, rfl, found⟩
      · obtain ⟨i, child, path, at_i, found⟩ := exists_path_of_mem_labelsList later
        exact ⟨i + 1, child, path, at_i, found⟩

end

/-- The labels of a program are those of the nodes at its paths. -/
theorem mem_labels_iff : label ∈ p.labels ↔ ∃ path, p.rootLabel? path = some label := by
  constructor
  · exact exists_path_of_mem_labels
  · intro reached
    obtain ⟨path, found⟩ := reached
    obtain ⟨part, at_path, rfl⟩ := Option.map_eq_some_iff.1 found
    obtain ⟨c, -, rfl⟩ := exists_context at_path
    have root : (part.symbol, part.children.length) ∈ part.labels := by
      cases part
      exact List.mem_cons_self
    rw [c.labels_plug]
    exact List.mem_append_left _ (List.mem_append_right _ root)

/-- The symbols of a program are those of the nodes at its paths. -/
theorem mem_symbols_iff {symbol : String} :
    symbol ∈ p.symbols ↔ ∃ path part, p.subtree? path = some part ∧ part.symbol = symbol := by
  rw [← map_fst_labels, List.mem_map]
  constructor
  · intro labelled
    obtain ⟨label, member, rfl⟩ := labelled
    obtain ⟨path, found⟩ := mem_labels_iff.1 member
    obtain ⟨part, at_path, rfl⟩ := Option.map_eq_some_iff.1 found
    exact ⟨path, part, at_path, rfl⟩
  · intro reached
    obtain ⟨path, part, at_path, rfl⟩ := reached
    refine ⟨(part.symbol, part.children.length), mem_labels_iff.2 ⟨path, ?_⟩, rfl⟩
    rw [rootLabel?, at_path, Option.map_some]

/-! ## Laws of editing -/

/-- Reading and replacing at a path are a lens. -/
theorem isLens_at (path : List Nat) :
    IsLens (fun p : Program => p.subtree? path) (fun p part => p.replace? path part) where
  exists_set_iff p part := by
    rw [← Option.isSome_iff_exists, ← Option.isSome_iff_exists, isSome_replace?]
  get_set p part q replaced := by
    obtain ⟨c, old, rfl, rfl, rfl⟩ := replace?_eq_some_iff.1 replaced
    exact c.subtree?_plug part
  set_get p old found := by
    obtain ⟨c, rfl, rfl⟩ := exists_context found
    exact c.replace?_plug old old
  set_set p part q other replaced := by
    obtain ⟨c, old, rfl, rfl, rfl⟩ := replace?_eq_some_iff.1 replaced
    exact (c.replace?_plug part other).trans (c.replace?_plug old other).symm

theorem replace?_cons (p : Program) (i : Nat) (path : List Nat) (replacement : Program) :
    p.replace? (i :: path) replacement =
      (p.children[i]?.bind fun child => child.replace? path replacement).map fun edited =>
        .node p.symbol (p.children.set i edited) := by
  rw [replace?]
  cases p.children[i]? <;> rfl

/-- What is replaced below a part is replaced in the part, and the part in the program. -/
theorem replace?_append (p : Program) (path below : List Nat) (replacement : Program) :
    p.replace? (path ++ below) replacement = (p.subtree? path).bind fun part =>
      (part.replace? below replacement).bind fun edited => p.replace? path edited := by
  induction path generalizing p with
  | nil =>
    simp only [List.nil_append, subtree?_nil, replace?_nil, Option.bind_some, Option.bind_fun_some]
  | cons i path ih =>
    rw [List.cons_append, replace?_cons, subtree?_cons]
    cases at_i : p.children[i]? with
    | none => rfl
    | some child =>
      simp only [Option.bind_some, replace?_cons, at_i, ih, Option.map_bind, Function.comp_def]

/-- Replacements below one child are replacements in the child. -/
theorem replace?_twice_below {i : Nat} {child : Program} (at_i : p.children[i]? = some child)
    (first second : Program) :
    ((p.replace? (i :: path) first).bind fun q => q.replace? (i :: other) second) =
      ((child.replace? path first).bind fun edited => edited.replace? other second).map fun edited =>
        .node p.symbol (p.children.set i edited) := by
  rcases p with ⟨head, arguments⟩
  have bound := (List.getElem?_eq_some_iff.1 at_i).1
  rw [replace?_cons, at_i, Option.bind_some, Option.bind_map, Option.map_bind]
  congr 1
  funext edited
  rw [children] at bound
  simp only [Function.comp_apply, replace?_cons, children, symbol, List.getElem?_set_self bound,
    Option.bind_some, List.set_set]

/-- Replacements below different children do not see one another. -/
theorem replace?_twice_beside {i j : Nat} (apart : i ≠ j) (p first second : Program) :
    ((p.replace? (i :: path) first).bind fun q => q.replace? (j :: other) second) =
      (p.children[i]?.bind fun child => child.replace? path first).bind fun edited =>
        (p.children[j]?.bind fun child => child.replace? other second).map fun edited' =>
          .node p.symbol ((p.children.set i edited).set j edited') := by
  rcases p with ⟨head, arguments⟩
  rw [replace?_cons, Option.bind_map]
  congr 1
  funext edited
  simp only [Function.comp_apply, replace?_cons, children, symbol, List.getElem?_set_ne apart]

/-- Replacements at paths that part can be made in either order. -/
theorem replace?_comm (notBelow : ¬path <+: other) (notAbove : ¬other <+: path)
    (p first second : Program) :
    ((p.replace? path first).bind fun q => q.replace? other second) =
      (p.replace? other second).bind fun q => q.replace? path first := by
  induction path generalizing p other with
  | nil => exact absurd List.nil_prefix notBelow
  | cons i path ih =>
    cases other with
    | nil => exact absurd List.nil_prefix notAbove
    | cons j other =>
      by_cases same : i = j
      · subst same
        have inside := ih (fun leads => notBelow (List.cons_prefix_cons.2 ⟨rfl, leads⟩))
          fun leads => notAbove (List.cons_prefix_cons.2 ⟨rfl, leads⟩)
        cases at_i : p.children[i]? with
        | none => simp only [replace?_cons, at_i, Option.bind_none, Option.map_none]
        | some child => rw [replace?_twice_below at_i, replace?_twice_below at_i, inside]
      · rw [replace?_twice_beside same, replace?_twice_beside (Ne.symm same)]
        cases p.children[i]?.bind fun child => child.replace? path first with
        | none => simp
        | some edited =>
          cases p.children[j]?.bind fun child => child.replace? other second with
          | none => rfl
          | some edited' => simp only [Option.bind_some, Option.map_some, List.set_comm _ _ same]

/-- The symbols of the old part are a block among the symbols of the program, and a replacement
puts the symbols of the new part in their place. -/
theorem symbols_replace? (found : p.subtree? path = some old) :
    ∃ before after, p.symbols = before ++ old.symbols ++ after ∧
      ∀ replacement q, p.replace? path replacement = some q →
        q.symbols = before ++ replacement.symbols ++ after := by
  obtain ⟨c, rfl, rfl⟩ := exists_context found
  have block (part : Program) : (c.plug part).symbols =
      c.labelsBefore.map Prod.fst ++ part.symbols ++ c.labelsAfter.map Prod.fst := by
    rw [← map_fst_labels, c.labels_plug, List.map_append, List.map_append, map_fst_labels]
  refine ⟨_, _, block old, ?_⟩
  intro replacement q replaced
  rw [c.replace?_plug, Option.some.injEq] at replaced
  rw [← replaced, block]

/-- What stands at a path is what some context surrounds, and to replace it is to fill this context
with the replacement. So reading and replacing at a path are a lens. A replacement further down is
one in the part at the path. Replacements at paths that part can be made in either order, and
neither changes what stands at the other path. A replacement takes the nodes of the old part and
adds those of the new one, and in pre-order the symbols of the new part take the place of those of
the old one. -/
theorem editing_lawful (path : List Nat) :
    (∀ p part : Program, p.subtree? path = some part ↔
      ∃ c : Context, c.path = path ∧ c.plug part = p) ∧
    (∀ p replacement q : Program, p.replace? path replacement = some q ↔
      ∃ (c : Context) (old : Program), c.path = path ∧ c.plug old = p ∧ c.plug replacement = q) ∧
    IsLens (fun p : Program => p.subtree? path) (fun p part => p.replace? path part) ∧
    (∀ (p : Program) (below : List Nat) (replacement : Program),
      p.replace? (path ++ below) replacement = (p.subtree? path).bind fun part =>
        (part.replace? below replacement).bind fun edited => p.replace? path edited) ∧
    (∀ other : List Nat, ¬path <+: other → ¬other <+: path → ∀ p first second : Program,
      ((p.replace? path first).bind fun q => q.replace? other second) =
          ((p.replace? other second).bind fun q => q.replace? path first) ∧
        (∀ q, p.replace? path first = some q → q.subtree? other = p.subtree? other) ∧
        ∀ q, p.replace? other second = some q → q.subtree? path = p.subtree? path) ∧
    ∀ p old : Program, p.subtree? path = some old →
      (∀ replacement q, p.replace? path replacement = some q →
        q.nodeCount + old.nodeCount = p.nodeCount + replacement.nodeCount) ∧
      ∃ before after, p.symbols = before ++ old.symbols ++ after ∧
        ∀ replacement q, p.replace? path replacement = some q →
          q.symbols = before ++ replacement.symbols ++ after := by
  refine ⟨fun p part => subtree?_eq_some_iff, fun p replacement q => replace?_eq_some_iff,
    isLens_at path, fun p below replacement => replace?_append p path below replacement, ?_, ?_⟩
  · intro other notBelow notAbove p first second
    exact ⟨replace?_comm notBelow notAbove p first second,
      fun q replaced => subtree?_replace?_apart replaced notBelow notAbove,
      fun q replaced => subtree?_replace?_apart replaced notAbove notBelow⟩
  · intro p old found
    exact ⟨fun replacement q => nodeCount_replace? found, symbols_replace? found⟩

/-- A path that leaves the program leads to nothing that could be replaced. -/
example :
    let p := Program.node "add" [.leaf "one", .node "neg" [.leaf "$1"]]
    p.replace? [1, 0] (.leaf "two") =
        some (.node "add" [.leaf "one", .node "neg" [.leaf "two"]]) ∧
      p.replace? [0, 0] (.leaf "two") = none := ⟨rfl, rfl⟩

end Program

end GrammarSearch
