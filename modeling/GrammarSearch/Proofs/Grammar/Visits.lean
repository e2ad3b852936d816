import GrammarSearch.Proofs.Grammar.Preparation

/-!
# Visits of a tree

A pass over a tree enters every node before the node's children and leaves it after them. What a
pass does at a visit, the calls it makes and the fault it may find, is up to the visit alone; and
what the pass comes to is up to its visits, one after the other as far as the first fault
(`Traced.calls_pass`, `Traced.fault?_pass`). Both passes of an evaluation are of this kind,
and the first one is shown to be here (`Grammar.course_prepare`).
-/

namespace GrammarSearch

variable {V α β γ : Type}

/-- A moment of a pass: a node is entered, or left when its children have been visited. -/
inductive Visit (α : Type)
  | enter (node : α)
  | leave (node : α)

/-- The node that a visit leaves. -/
def Visit.left? : Visit α → Option α
  | .enter _ => none
  | .leave node => some node

/-! ## The first fault -/

section Reached

variable {ε δ : Type} {fault? : α → Option ε}

/-- The elements as far as the first with a fault, that one included. -/
def reached (fault? : α → Option ε) : List α → List α
  | [] => []
  | a :: l =>
    match fault? a with
    | some _ => [a]
    | none => a :: reached fault? l

theorem reached_of_fault {a : α} {e : ε} (found : fault? a = some e) (l : List α) :
    reached fault? (a :: l) = [a] := by
  rw [reached, found]

theorem reached_of_clean {a : α} (clean : fault? a = none) (l : List α) :
    reached fault? (a :: l) = a :: reached fault? l := by
  rw [reached, clean]

theorem reached_sublist (fault? : α → Option ε) (l : List α) : (reached fault? l).Sublist l := by
  induction l with
  | nil => exact .slnil
  | cons a l ih =>
    cases found : fault? a with
    | some e =>
      rw [reached_of_fault found]
      exact (List.nil_sublist l).cons_cons a
    | none =>
      rw [reached_of_clean found]
      exact ih.cons_cons a

/-- Where nothing has a fault, all is reached. -/
theorem reached_eq_self {l : List α} (clean : ∀ a ∈ l, fault? a = none) : reached fault? l = l := by
  induction l with
  | nil => rfl
  | cons a l ih =>
    rw [List.forall_mem_cons] at clean
    rw [reached_of_clean clean.1, ih clean.2]

theorem reached_append {before : List α} {a : α} {e : ε}
    (clean : ∀ b ∈ before, fault? b = none) (found : fault? a = some e) (after : List α) :
    reached fault? (before ++ a :: after) = before ++ [a] := by
  induction before with
  | nil => exact reached_of_fault found after
  | cons b before ih =>
    rw [List.forall_mem_cons] at clean
    rw [List.cons_append, reached_of_clean clean.1, ih clean.2, List.cons_append]

/-- What is reached has nothing with a fault before it. -/
theorem exists_of_mem_reached {l : List α} {a : α} (member : a ∈ reached fault? l) :
    ∃ before after, l = before ++ a :: after ∧ ∀ b ∈ before, fault? b = none := by
  induction l with
  | nil => cases member
  | cons b l ih =>
    cases found : fault? b with
    | some e =>
      rw [reached_of_fault found, List.mem_singleton] at member
      exact ⟨[], l, by rw [member]; rfl, by simp⟩
    | none =>
      rw [reached_of_clean found, List.mem_cons] at member
      rcases member with rfl | later
      · exact ⟨[], l, rfl, by simp⟩
      · obtain ⟨before, after, split, clean⟩ := ih later
        exact ⟨b :: before, after, by rw [split]; rfl, List.forall_mem_cons.2 ⟨found, clean⟩⟩

/-- If just the elements selected can have faults, to go as far as the first fault and to select is
to select and to go as far. -/
theorem filterMap_reached {select : α → Option β} {failure? : β → Option δ} {l : List α}
    (same : ∀ a ∈ l, (fault? a).isSome = (select a).any fun b => (failure? b).isSome) :
    (reached fault? l).filterMap select = reached failure? (l.filterMap select) := by
  induction l with
  | nil => rfl
  | cons a l ih =>
    rw [List.forall_mem_cons] at same
    obtain ⟨here, rest⟩ := same
    cases selected : select a with
    | none =>
      have clean : fault? a = none := by simpa [selected] using here
      rw [reached_of_clean clean, List.filterMap_cons_none selected,
        List.filterMap_cons_none selected, ih rest]
    | some b =>
      rw [selected, Option.any_some] at here
      rw [List.filterMap_cons_some selected]
      cases found : failure? b with
      | some e =>
        obtain ⟨e', fault⟩ := Option.isSome_iff_exists.1 (here.trans (by rw [found]; rfl))
        rw [reached_of_fault fault, reached_of_fault found, List.filterMap_cons_some selected]
        rfl
      | none =>
        have clean : fault? a = none := by simpa [found] using here
        rw [reached_of_clean clean, reached_of_clean found, List.filterMap_cons_some selected,
          ih rest]

end Reached

/-! ## Passes -/

namespace Traced

theorem bind_of_ok {x : Traced V α} {a : α} (outcome : x.outcome = .ok a) (f : α → Traced V β) :
    x.bind f = ⟨x.calls ++ (f a).calls, (f a).outcome⟩ := by
  rw [bind, outcome]

theorem bind_of_error {x : Traced V α} {e : GrammarError} (outcome : x.outcome = .error e)
    (f : α → Traced V β) : x.bind f = ⟨x.calls, .error e⟩ := by
  rw [bind, outcome]

theorem exists_of_bind_eq_ok {x : Traced V α} {f : α → Traced V β} {b : β}
    (outcome : (x.bind f).outcome = .ok b) :
    ∃ a, x.outcome = .ok a ∧ (f a).outcome = .ok b := by
  cases first : x.outcome with
  | error e =>
    rw [bind_of_error first] at outcome
    cases outcome
  | ok a =>
    rw [bind_of_ok first] at outcome
    exact ⟨a, rfl, outcome⟩

theorem exists_of_map_eq_ok {x : Traced V α} {f : α → β} {b : β}
    (outcome : (x.map f).outcome = .ok b) : ∃ a, x.outcome = .ok a ∧ f a = b := by
  rcases x with ⟨calls, e | a⟩
  · cases outcome
  · exact ⟨a, rfl, Except.ok.inj outcome⟩

theorem bind_assoc (x : Traced V α) (f : α → Traced V β) (h : β → Traced V γ) :
    (x.bind f).bind h = x.bind fun a => (f a).bind h := by
  cases first : x.outcome with
  | error e => rw [bind_of_error first, bind_of_error first, bind_of_error rfl]
  | ok a =>
    rw [bind_of_ok first, bind_of_ok first]
    cases second : (f a).outcome with
    | error e => rw [bind_of_error rfl, bind_of_error second]
    | ok b => rw [bind_of_ok rfl, bind_of_ok second, List.append_assoc]

/-- The calls and the fault of an evaluation, without its value. -/
def course (x : Traced V α) : Traced V Unit := x.map fun _ => ()

@[simp] theorem calls_course (x : Traced V α) : x.course.calls = x.calls := rfl

@[simp] theorem fault?_course (x : Traced V α) : x.course.fault? = x.fault? := fault?_map _ x

@[simp] theorem course_map (f : α → β) (x : Traced V α) : (x.map f).course = x.course := by
  rcases x with ⟨calls, e | a⟩ <;> rfl

/-- A step whose course does not depend on the value before it. -/
theorem course_bind {x : Traced V α} {f : α → Traced V β} {later : Traced V Unit}
    (same : ∀ a, x.outcome = .ok a → (f a).course = later) :
    (x.bind f).course = x.course.bind fun _ => later := by
  cases first : x.outcome with
  | error e =>
    have quiet : x.course.outcome = .error e := by rw [course, map, first]; rfl
    rw [bind_of_error first, bind_of_error quiet]
    rfl
  | ok a =>
    have quiet : x.course.outcome = .ok () := by rw [course, map, first]; rfl
    rw [bind_of_ok first, bind_of_ok quiet, ← same a first]
    rfl

/-- What is done at one visit: a call, if one is due, and then an end, if a fault is found. -/
def act (call? : Option (Call V)) (fault? : Option GrammarError) : Traced V Unit where
  calls := call?.toList
  outcome :=
    match fault? with
    | some e => .error e
    | none => .ok ()

/-- What is done at visits, one after the other, until there is a fault. -/
def pass (call? : α → Option (Call V)) (fault? : α → Option GrammarError) : List α → Traced V Unit
  | [] => .ofExcept (.ok ())
  | a :: l => (act (call? a) (fault? a)).bind fun _ => pass call? fault? l

variable {call? : α → Option (Call V)} {fault : α → Option GrammarError}

theorem pass_of_fault {a : α} {e : GrammarError} (found : fault a = some e) (l : List α) :
    pass call? fault (a :: l) = act (call? a) (some e) := by
  rw [pass, found, bind_of_error rfl]
  rfl

theorem pass_of_clean {a : α} (clean : fault a = none) (l : List α) :
    pass call? fault (a :: l) =
      ⟨(call? a).toList ++ (pass call? fault l).calls, (pass call? fault l).outcome⟩ := by
  rw [pass, clean, bind_of_ok rfl]
  rfl

theorem pass_singleton (a : α) : pass call? fault [a] = act (call? a) (fault a) := by
  cases found : fault a with
  | some e => exact pass_of_fault found []
  | none =>
    rw [pass_of_clean found, pass, ofExcept, List.append_nil]
    rfl

theorem pass_append (l m : List α) :
    pass call? fault (l ++ m) = (pass call? fault l).bind fun _ => pass call? fault m := by
  induction l with
  | nil => rw [pass, bind_of_ok rfl]; rfl
  | cons a l ih => rw [List.cons_append, pass, pass, ih, bind_assoc]

/-- A pass ends at the first fault. -/
theorem fault?_pass (l : List α) : (pass call? fault l).fault? = l.findSome? fault := by
  induction l with
  | nil => rfl
  | cons a l ih =>
    cases found : fault a with
    | some e =>
      rw [pass_of_fault found, List.findSome?_cons, found]
      rfl
    | none =>
      rw [pass_of_clean found, List.findSome?_cons, found, ← ih]
      rfl

/-- A pass makes the calls of its visits as far as the first fault, that of the faulty visit
included. -/
theorem calls_pass (l : List α) :
    (pass call? fault l).calls = (reached fault l).filterMap call? := by
  induction l with
  | nil => rfl
  | cons a l ih =>
    cases found : fault a with
    | some e =>
      rw [pass_of_fault found, reached_of_fault found, act]
      cases called : call? a <;> simp [called]
    | none =>
      rw [pass_of_clean found, reached_of_clean found, ih]
      cases called : call? a <;> simp [called]

end Traced

/-! ## Programs -/

namespace Program

mutual

/-- The visits of a program. A node is known by its label. -/
def visits : Program → List (Visit (String × Nat))
  | .node symbol children =>
    .enter (symbol, children.length) :: (visitsList children ++ [.leave (symbol, children.length)])

/-- The visits of programs from left to right. -/
def visitsList : List Program → List (Visit (String × Nat))
  | [] => []
  | p :: ps => p.visits ++ visitsList ps

end

end Program

/-! ## Prepared programs -/

namespace Prepared

/-- The symbol at the root. -/
def symbol : Prepared V → String
  | .node symbol _ _ => symbol

/-- The prepared programs below the root, from left to right. -/
def children : Prepared V → List (Prepared V)
  | .node _ children _ => children

/-- The state of the use of a production at the root. -/
def state : Prepared V → UseState V
  | .node _ _ state => state

mutual

/-- The program that was prepared. -/
def program : Prepared V → Program
  | .node symbol children _ => .node symbol (programs children)

/-- The programs that were prepared. -/
def programs : List (Prepared V) → List Program
  | [] => []
  | t :: ts => t.program :: programs ts

end

mutual

/-- The visits of a prepared program. -/
def visits : Prepared V → List (Visit (Prepared V))
  | .node symbol children state =>
    .enter (.node symbol children state) ::
      (visitsList children ++ [.leave (.node symbol children state)])

/-- The visits of prepared programs from left to right. -/
def visitsList : List (Prepared V) → List (Visit (Prepared V))
  | [] => []
  | t :: ts => t.visits ++ visitsList ts

end

/-- The nodes of a prepared program, every one after its children. -/
def postorder (t : Prepared V) : List (Prepared V) := t.visits.filterMap Visit.left?

/-- The nodes of prepared programs from left to right. -/
def postorderList (ts : List (Prepared V)) : List (Prepared V) :=
  (visitsList ts).filterMap Visit.left?

@[simp] theorem postorder_node (symbol : String) (children : List (Prepared V))
    (state : UseState V) :
    (node symbol children state).postorder =
      postorderList children ++ [.node symbol children state] := by
  simp [postorder, postorderList, visits, List.filterMap_cons, Visit.left?]

@[simp] theorem postorderList_nil : postorderList ([] : List (Prepared V)) = [] := rfl

@[simp] theorem postorderList_cons (t : Prepared V) (ts : List (Prepared V)) :
    postorderList (t :: ts) = t.postorder ++ postorderList ts :=
  List.filterMap_append

theorem self_mem_postorder (t : Prepared V) : t ∈ t.postorder := by
  cases t
  simp

end Prepared

/-! ## Preparation -/

namespace Grammar

variable {g : Grammar V}

/-- The production of the symbol has parameters. -/
def parameterizes (g : Grammar V) (symbol : String) : Bool :=
  (g.production? symbol).any (·.isParameterized)

/-- The fault that a preparation may find at a visit: it checks a node when it enters it. -/
def labelFaultAt? (g : Grammar V) : Visit (String × Nat) → Option GrammarError
  | .enter label => g.fault? label
  | .leave _ => none

/-- The call by which a preparation makes parameters for a node that it leaves. -/
def making? (g : Grammar V) (label : String × Nat) : Option (Call V) :=
  if g.parameterizes label.1 then some (.prepared label.1) else none

/-- A node without a fault has a production. -/
theorem production?_of_productionAt {symbol : String} {children : List Program}
    {production : Production V} (found : g.productionAt (.node symbol children) = .ok production) :
    g.production? symbol = some production ∧ production.arity = children.length := by
  unfold productionAt at found
  split at found
  · cases found
  · simp only [Program.symbol, Program.children] at found
    cases known : g.production? symbol with
    | none => simp [known] at found
    | some other =>
      by_cases same : other.arity = children.length
      · simp only [known, same, ne_eq, not_true_eq_false, if_false] at found
        obtain rfl := Except.ok.inj found
        exact ⟨rfl, same⟩
      · simp [known, same] at found

theorem course_prepare_production {symbol : String} {production : Production V} (arguments : Nat)
    (found : g.production? symbol = some production) (serial : Nat) :
    (production.prepare serial).course = .act (g.making? (symbol, arguments)) none := by
  obtain ⟨same, -⟩ := symbol_of_production? found
  rw [making?, parameterizes, found, Option.any_some, Production.isParameterized,
    Production.prepare, same]
  cases production.meaning <;> rfl

mutual

/-- To prepare a program is to visit it. -/
theorem course_prepare (g : Grammar V) (serial : Nat) :
    ∀ p : Program, (g.prepare serial p).course =
      .pass (fun visit => visit.left?.bind g.making?) g.labelFaultAt? p.visits
  | .node symbol children => by
      have checked := g.fault?_label symbol children
      rw [prepare, Program.visits]
      cases found : g.productionAt (.node symbol children) with
      | error e =>
        have fault : g.labelFaultAt? (.enter (symbol, children.length)) = some e := by
          rw [labelFaultAt?, checked, found]
        rw [Traced.pass_of_fault fault]
        rfl
      | ok production =>
        have clean : g.labelFaultAt? (.enter (symbol, children.length)) = none := by
          rw [labelFaultAt?, checked, found]
        obtain ⟨known, -⟩ := production?_of_productionAt found
        have below := course_prepareList g serial children
        have last (serial : Nat) := course_prepare_production children.length known serial
        rw [Traced.pass_of_clean clean, Traced.pass_append, ← below, Traced.pass_singleton]
        exact Traced.course_bind fun prepared _ => by rw [Traced.course_map, last]; rfl

theorem course_prepareList (g : Grammar V) (serial : Nat) :
    ∀ ps : List Program, (g.prepareList serial ps).course =
      .pass (fun visit => visit.left?.bind g.making?) g.labelFaultAt? (Program.visitsList ps)
  | [] => rfl
  | p :: ps => by
      rw [prepareList, Program.visitsList, Traced.pass_append, ← course_prepare g serial p]
      exact Traced.course_bind fun prepared _ => by
        rw [Traced.course_map, course_prepareList g _ ps]

end

/-- The fault of a preparation is the first that it finds at a visit. -/
theorem fault?_prepare_visits (g : Grammar V) (serial : Nat) (p : Program) :
    (g.prepare serial p).fault? = p.visits.findSome? g.labelFaultAt? := by
  rw [← Traced.fault?_course, course_prepare, Traced.fault?_pass]

/-- A preparation makes parameters when it leaves a node, until it finds a fault. -/
theorem calls_prepare (g : Grammar V) (serial : Nat) (p : Program) :
    (g.prepare serial p).calls =
      ((reached g.labelFaultAt? p.visits).filterMap Visit.left?).filterMap g.making? := by
  rw [← Traced.calls_course, course_prepare, Traced.calls_pass, List.filterMap_filterMap]

end Grammar

end GrammarSearch
