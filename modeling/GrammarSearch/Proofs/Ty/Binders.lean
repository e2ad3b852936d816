import GrammarSearch.Proofs.Ty.Union
import GrammarSearch.Ty.Scope

/-!
# Binders

Inside a binder the indices from outside are moved up by the number of its types, and below them
stand the types, the last one at index zero. To leave a binder is possible unless one of its
variables has another type, and gives what is bound above its variables
(`Environment.leave_eq_ok_iff`). It undoes entering, and both compose (`BinderLaws`).

Binders are compatible with unions: environments agree inside a binder exactly if they agree
outside, and what is bound outside of a union is the union of what is bound outside
(`Environment.merge_across_binders`).
-/

namespace GrammarSearch

/-- The environment is what another one binds from an index on, moved down to zero. -/
def Environment.IsAbove (outer env : Environment) (count : Nat) : Prop :=
  ∀ i, outer.get? i = env.get? (i + count)

namespace Environment

variable {a b env other outer x y m p : Environment} {types : List Ty} {c : Conflict}

/-! ## Entering -/

theorem isAbove_enter (env : Environment) (types : List Ty) :
    env.IsAbove (env.enter types) types.length :=
  fun i => (get?_enter_add env types i).symm

theorem enter_enter (env : Environment) (outer inner : List Ty) :
    (env.enter outer).enter inner = env.enter (outer ++ inner) := by
  apply ext
  intro i
  rw [get?_enter, get?_enter, get?_enter, List.length_append, List.reverse_append]
  have length : inner.reverse.length = inner.length := List.length_reverse
  rcases Nat.lt_or_ge i inner.length with inside | outside
  · rw [if_pos inside, if_pos (by omega), List.getElem?_append_left (by omega)]
  · rw [if_neg (by omega), List.getElem?_append_right (by omega), length]
    have moved : i - inner.length < outer.length ↔ i < outer.length + inner.length := by omega
    have index : i - inner.length - outer.length = i - (outer.length + inner.length) := by omega
    simp only [moved, index]

/-- What agrees with an environment inside of a binder agrees with the binder. -/
theorem Agrees.of_enter (agrees : env.Agrees (other.enter types)) :
    env.Agrees (empty.enter types) := by
  intro i t u here there
  rw [get?_enter_empty] at there
  have inside := (List.getElem?_eq_some_iff.1 there).1
  rw [List.length_reverse] at inside
  exact agrees i t u here ((get?_enter_of_lt inside).trans there)

/-- To agree with an environment inside of a binder is to agree with the binder, and outside of it
with the environment. -/
theorem agrees_enter_iff (above : outer.IsAbove env types.length) :
    env.Agrees (other.enter types) ↔ env.Agrees (empty.enter types) ∧ outer.Agrees other := by
  constructor
  · intro agrees
    refine ⟨agrees.of_enter, fun i t u here there => ?_⟩
    rw [above i] at here
    exact agrees _ t u here ((get?_enter_add other types i).trans there)
  · rintro ⟨inside, outside⟩ i t u here there
    rcases lt_or_exists_add types i with below | ⟨j, rfl⟩
    · rw [get?_enter_of_lt below, ← get?_enter_empty] at there
      exact inside i t u here there
    · rw [get?_enter_add] at there
      exact outside j t u ((above j).trans here) there

theorem agrees_binder (env : Environment) (types : List Ty) :
    (env.enter types).Agrees (empty.enter types) :=
  (Agrees.refl (env.enter types)).of_enter

/-! ## Leaving -/

theorem IsAbove.unique {count : Nat} (first : x.IsAbove env count) (second : y.IsAbove env count) :
    x = y :=
  ext fun i => (first i).trans (second i).symm

theorem leave_eq_error_iff : env.leave types = .error c ↔ c.Splits env (empty.enter types) := by
  rw [← conflict?_eq_some_iff, bindings_enter_empty, leave]
  cases env.conflict? (numbered 0 types.reverse) with
  | none => exact ⟨nofun, nofun⟩
  | some d => rw [Except.error.injEq, Option.some.injEq]

/-- What is bound above the variables of a binder is outside of it. -/
theorem leave_eq_ok_iff :
    env.leave types = .ok outer ↔
      env.Agrees (empty.enter types) ∧ outer.IsAbove env types.length := by
  rw [← conflict?_eq_none_iff, bindings_enter_empty]
  cases quiet : env.conflict? (numbered 0 types.reverse) with
  | some d =>
    rw [leave, quiet]
    exact ⟨nofun, fun both => nomatch both.1⟩
  | none =>
    obtain ⟨result, left⟩ : ∃ result, env.leave types = .ok result := by
      rw [leave, quiet]
      exact ⟨_, rfl⟩
    have above : result.IsAbove env types.length := by
      rw [leave, quiet, Except.ok.injEq] at left
      intro i
      ext t
      rw [get?_eq_some_iff, get?_eq_some_iff, ← left]
      simp only [List.mem_map, List.mem_filter, decide_eq_true_eq, Prod.exists, Prod.mk.injEq]
      constructor
      · rintro ⟨j, u, ⟨member, outside⟩, rfl, rfl⟩
        rwa [Nat.sub_add_cancel outside]
      · intro member
        exact ⟨_, t, ⟨member, Nat.le_add_left _ _⟩, Nat.add_sub_cancel _ _, rfl⟩
    rw [left, Except.ok.injEq]
    exact ⟨fun same => ⟨rfl, same ▸ above⟩, fun both => above.unique both.2⟩

theorem exists_leave_iff :
    (∃ outer, env.leave types = .ok outer) ↔ env.Agrees (empty.enter types) := by
  constructor
  · rintro ⟨outer, left⟩
    exact (leave_eq_ok_iff.1 left).1
  · intro agrees
    cases left : env.leave types with
    | ok outer => exact ⟨outer, rfl⟩
    | error c => exact absurd agrees (leave_eq_error_iff.1 left).not_agrees

theorem leave_enter (env : Environment) (types : List Ty) :
    (env.enter types).leave types = .ok env :=
  leave_eq_ok_iff.2 ⟨agrees_binder env types, isAbove_enter env types⟩

theorem leave_leave_eq_ok_iff {inner : List Ty} :
    (env.leave inner >>= fun between => between.leave types) = .ok outer ↔
      env.leave (types ++ inner) = .ok outer := by
  rw [bind_eq_ok_iff, leave_eq_ok_iff, ← enter_enter]
  constructor
  · rintro ⟨between, first, second⟩
    obtain ⟨agrees, above⟩ := leave_eq_ok_iff.1 first
    obtain ⟨agreesOutside, aboveBetween⟩ := leave_eq_ok_iff.1 second
    refine ⟨(agrees_enter_iff above).2 ⟨agrees, agreesOutside⟩, fun i => ?_⟩
    rw [aboveBetween i, above, List.length_append, Nat.add_assoc]
  · rintro ⟨agrees, aboveBoth⟩
    obtain ⟨between, first⟩ := exists_leave_iff.2 agrees.of_enter
    have above := (leave_eq_ok_iff.1 first).2
    refine ⟨between, first, leave_eq_ok_iff.2 ⟨((agrees_enter_iff above).1 agrees).2, fun i => ?_⟩⟩
    rw [aboveBoth i, above, List.length_append, Nat.add_assoc]

/-- Entered again, what was left binds what was bound inside, and every variable of the binder. -/
theorem get?_enter_of_leave (left : env.leave types = .ok outer) (i : Nat) :
    (outer.enter types).get? i = (env.get? i).or types.reverse[i]? := by
  obtain ⟨agrees, above⟩ := leave_eq_ok_iff.1 left
  rcases lt_or_exists_add types i with inside | ⟨j, rfl⟩
  · rw [get?_enter_of_lt inside]
    cases here : env.get? i with
    | none => rfl
    | some t =>
      obtain ⟨u, there⟩ := exists_get?_enter_of_lt empty inside
      rw [← get?_enter_empty, there, Option.some_or, agrees i t u here there]
  · have beyond : types.reverse[j + types.length]? = none :=
      List.getElem?_eq_none (by rw [List.length_reverse]; omega)
    rw [get?_enter_add, above j, beyond, Option.or_none]

end Environment

/-! ## The laws of binders -/

/-- A variable of the binder is bound, but not to the type that the binder gives it. -/
structure Mismatch (binds : Nat → Ty → Prop) (types : List Ty) (c : Conflict) : Prop where
  bound : binds c.index c.bound
  expected : types.reverse[c.index]? = some c.found
  differs : ¬binds c.index c.found

/-- What holds of environments of some kind that binders are entered and left in. -/
structure BinderLaws {E : Type} (enter : E → List Ty → E)
    (leave : E → List Ty → Except Conflict E) (binds : E → Nat → Ty → Prop) : Prop where
  /-- To leave a binder undoes entering it. -/
  leave_enter : ∀ env types, leave (enter env types) types = .ok env
  enter_enter : ∀ env outer inner, enter (enter env outer) inner = enter env (outer ++ inner)
  /-- To leave two binders, the inner one first, is to leave both at once. -/
  leave_leave : ∀ env outer inner,
    (leave env inner >>= fun between => leave between outer).toOption =
      (leave env (outer ++ inner)).toOption
  /-- A binder cannot be left exactly if one of its variables has another type. -/
  leave_fails_iff : ∀ env types,
    (∃ c, leave env types = .error c) ↔ ∃ c, Mismatch (binds env) types c
  /-- The first such variable is told, with the type it has and the type it should have. -/
  leave_error_iff : ∀ env types c, leave env types = .error c ↔
    Mismatch (binds env) types c ∧ ∀ d, Mismatch (binds env) types d → c.index ≤ d.index
  /-- To enter a binder that was left binds what was bound, and those of its variables to its types
  that were not. -/
  enter_leave : ∀ env types outer, leave env types = .ok outer → ∀ i t,
    binds (enter outer types) i t ↔
      binds env i t ∨ (∀ u, ¬binds env i u) ∧ types.reverse[i]? = some t

namespace Environment

variable {env : Environment} {types : List Ty} {c : Conflict}

/-- An environment binds an index to a type. -/
def Binds (env : Environment) (i : Nat) (t : Ty) : Prop := env.get? i = some t

theorem splits_binder_iff :
    c.Splits env (empty.enter types) ↔
      Mismatch env.Binds types c ∧ ∀ d, Mismatch env.Binds types d → c.index ≤ d.index := by
  constructor
  · intro splits
    refine ⟨⟨splits.bound_eq, (get?_enter_empty types _).symm.trans splits.found_eq, fun same =>
      splits.differ (Option.some.inj (splits.bound_eq.symm.trans same))⟩, fun d mismatch => ?_⟩
    rcases Nat.lt_or_ge d.index c.index with before | notBefore
    · have there := (get?_enter_empty types d.index).trans mismatch.expected
      have same := splits.first _ before _ _ mismatch.bound there
      exact absurd (same ▸ mismatch.bound) mismatch.differs
    · exact notBefore
  · rintro ⟨mismatch, least⟩
    refine ⟨mismatch.bound, (get?_enter_empty types _).trans mismatch.expected, fun same =>
      mismatch.differs (same ▸ mismatch.bound), fun i before t u here there => ?_⟩
    rw [get?_enter_empty] at there
    refine Decidable.byContradiction fun differ => ?_
    have earlier : Mismatch env.Binds types ⟨i, t, u⟩ :=
      ⟨here, there, fun same => differ (Option.some.inj (here.symm.trans same))⟩
    exact absurd (least _ earlier) (Nat.not_le.2 before)

theorem binderLaws : BinderLaws enter leave Binds where
  leave_enter := leave_enter
  enter_enter := enter_enter
  leave_leave _ _ _ := toOption_eq_iff.2 fun _ => leave_leave_eq_ok_iff
  leave_fails_iff env types := by
    constructor
    · rintro ⟨c, failed⟩
      exact ⟨c, (splits_binder_iff.1 (leave_eq_error_iff.1 failed)).1⟩
    · rintro ⟨c, mismatch⟩
      rcases agrees_or_splits env (empty.enter types) with agrees | ⟨d, splits⟩
      · have same := agrees _ _ _ mismatch.bound ((get?_enter_empty types _).trans mismatch.expected)
        exact absurd (same ▸ mismatch.bound) mismatch.differs
      · exact ⟨d, leave_eq_error_iff.2 splits⟩
  leave_error_iff _ _ _ := leave_eq_error_iff.trans splits_binder_iff
  enter_leave env types outer left i t := by
    have unbound : (∀ u, ¬env.Binds i u) ↔ env.get? i = none := Option.eq_none_iff_forall_ne_some.symm
    rw [Binds, get?_enter_of_leave left, Option.or_eq_some_iff, unbound]
    rfl

end Environment

namespace Scope

theorem leave_strict_eq_error_iff {env : Environment} {types : List Ty} {c : Conflict} :
    (strict env).leave types = .error c ↔ env.leave types = .error c := by
  rw [leave]
  cases env.leave types with
  | error d => rw [Except.map, Except.error.injEq, Except.error.injEq]
  | ok outer => exact ⟨nofun, nofun⟩

/-- A strict scope is left as its environment is. -/
theorem exists_of_leave_strict {env : Environment} {types : List Ty} {scope : Scope}
    (left : (strict env).leave types = .ok scope) :
    ∃ outer, env.leave types = .ok outer ∧ scope = .strict outer := by
  rw [leave] at left
  cases outside : env.leave types with
  | error d =>
    rw [outside] at left
    cases left
  | ok outer =>
    rw [outside] at left
    exact ⟨outer, rfl, (Except.ok.inj left).symm⟩

/-- A scope admits a variable of a type at an index. -/
def Admits (scope : Scope) (i : Nat) (t : Ty) : Prop := scope.admits t i = true

theorem admits_strict (env : Environment) : (strict env).Admits = env.Binds := by
  funext i t
  simp [Admits, admits, Environment.Binds]

theorem not_mismatch_permissive {types : List Ty} {c : Conflict} :
    ¬Mismatch permissive.Admits types c :=
  fun mismatch => mismatch.differs rfl

theorem leave_leave (scope : Scope) (outer inner : List Ty) :
    (scope.leave inner >>= fun between => between.leave outer).toOption =
      (scope.leave (outer ++ inner)).toOption := by
  cases scope with
  | permissive => rfl
  | strict env =>
    have mapped (x : Except Conflict Environment) :
        (x.map Scope.strict).toOption = x.toOption.map Scope.strict := by
      cases x <;> rfl
    calc ((strict env).leave inner >>= fun between => between.leave outer).toOption
      _ = ((env.leave inner >>= fun between => between.leave outer).map Scope.strict).toOption := by
        rw [leave]
        cases env.leave inner <;> rfl
      _ = ((env.leave (outer ++ inner)).map Scope.strict).toOption := by
        rw [mapped, mapped, Environment.binderLaws.leave_leave]

theorem binderLaws : BinderLaws enter leave Admits where
  leave_enter scope types := by
    cases scope with
    | permissive => rfl
    | strict env => rw [enter, leave, Environment.leave_enter, Except.map]
  enter_enter scope outer inner := by
    cases scope with
    | permissive => rfl
    | strict env => exact congrArg strict (env.enter_enter outer inner)
  leave_leave := leave_leave
  leave_fails_iff scope types := by
    cases scope with
    | permissive =>
      constructor
      · rintro ⟨c, ⟨⟩⟩
      · rintro ⟨c, mismatch⟩
        exact absurd mismatch not_mismatch_permissive
    | strict env =>
      simp only [leave_strict_eq_error_iff, admits_strict]
      exact Environment.binderLaws.leave_fails_iff env types
  leave_error_iff scope types c := by
    cases scope with
    | permissive =>
      constructor
      · rintro ⟨⟩
      · rintro ⟨mismatch, -⟩
        exact absurd mismatch not_mismatch_permissive
    | strict env =>
      simp only [leave_strict_eq_error_iff, admits_strict]
      exact Environment.binderLaws.leave_error_iff env types c
  enter_leave scope types outer left i t := by
    cases scope with
    | permissive =>
      cases left
      exact ⟨fun _ => .inl rfl, fun _ => rfl⟩
    | strict env =>
      obtain ⟨inside, leftInside, rfl⟩ := exists_of_leave_strict left
      simp only [enter, admits_strict]
      exact Environment.binderLaws.enter_leave env types inside leftInside i t

end Scope

/-- To leave a binder undoes entering it, both compose, and what can go wrong is told, for
environments as for scopes. A permissive scope is the same inside and outside of every binder. -/
theorem binders_left_as_entered :
    BinderLaws Environment.enter Environment.leave Environment.Binds ∧
      BinderLaws Scope.enter Scope.leave Scope.Admits ∧
      ∀ types, Scope.permissive.enter types = .permissive ∧
        Scope.permissive.leave types = .ok .permissive :=
  ⟨Environment.binderLaws, Scope.binderLaws, fun _ => ⟨rfl, rfl⟩⟩

/-- Where the binder's variable is not bound, to leave and to enter again binds it. -/
example :
    ((⟨[(1, .atomic "int")], by decide⟩ : Environment).leave [.atomic "f"]).map
        (fun outer => (outer.enter [.atomic "f"]).bindings) =
      .ok [(0, .atomic "f"), (1, .atomic "int")] := rfl

/-! ## Binders and unions -/

/-- The first index where environments do not agree moves up with the others. -/
theorem Conflict.Splits.enter {a b : Environment} {c : Conflict} (splits : c.Splits a b)
    (types : List Ty) :
    (⟨c.index + types.length, c.bound, c.found⟩ : Conflict).Splits (a.enter types)
      (b.enter types) where
  bound_eq := (Environment.get?_enter_add a types c.index).trans splits.bound_eq
  found_eq := (Environment.get?_enter_add b types c.index).trans splits.found_eq
  differ := splits.differ
  first i before t u here there := by
    rcases Environment.lt_or_exists_add types i with inside | ⟨j, rfl⟩
    · rw [Environment.get?_enter_of_lt inside] at here there
      exact Option.some.inj (here.symm.trans there)
    · rw [Environment.get?_enter_add] at here there
      exact splits.first j (Nat.lt_of_add_lt_add_right before) t u here there

namespace Environment

variable {a b m p x y : Environment} {types : List Ty}

theorem Unites.enter (unites : m.Unites [a, b]) (types : List Ty) :
    (m.enter types).Unites [a.enter types, b.enter types] := by
  rw [unites_pair] at unites ⊢
  intro i t
  rcases lt_or_exists_add types i with inside | ⟨j, rfl⟩
  · rw [get?_enter_of_lt inside, get?_enter_of_lt inside, get?_enter_of_lt inside, or_self]
  · rw [get?_enter_add, get?_enter_add, get?_enter_add]
    exact unites j t

/-- Outside of a union is the union of what is outside. -/
theorem Unites.isAbove_iff {count : Nat} (unites : m.Unites [a, b]) (first : x.IsAbove a count)
    (second : y.IsAbove b count) : p.IsAbove m count ↔ p.Unites [x, y] := by
  rw [unites_pair] at unites ⊢
  have moved (i : Nat) (t : Ty) :
      m.get? (i + count) = some t ↔ x.get? i = some t ∨ y.get? i = some t := by
    rw [first i, second i]
    exact unites (i + count) t
  constructor
  · intro above i t
    rw [above i, moved]
  · intro united i
    ext t
    rw [united, moved]

/-- Environments that agree with a binder agree if they do so outside of it. -/
theorem agrees_of_outside (first : a.leave types = .ok x) (second : b.leave types = .ok y)
    (agree : x.Agrees y) : a.Agrees b := by
  obtain ⟨agreesFirst, aboveFirst⟩ := leave_eq_ok_iff.1 first
  obtain ⟨agreesSecond, aboveSecond⟩ := leave_eq_ok_iff.1 second
  intro i t u here there
  rcases lt_or_exists_add types i with inside | ⟨j, rfl⟩
  · obtain ⟨v, bound⟩ := exists_get?_enter_of_lt empty inside
    exact (agreesFirst i t v here bound).trans (agreesSecond i u v there bound).symm
  · exact agree j t u ((aboveFirst j).trans here) ((aboveSecond j).trans there)

theorem leave_merge_eq_ok_iff :
    (a.merge b >>= fun m => m.leave types) = .ok p ↔
      ∃ x, a.leave types = .ok x ∧ ∃ y, b.leave types = .ok y ∧ x.merge y = .ok p := by
  rw [bind_eq_ok_iff]
  constructor
  · rintro ⟨m, merged, left⟩
    have unites := merge_eq_ok_iff.1 merged
    obtain ⟨agrees, above⟩ := leave_eq_ok_iff.1 left
    have both := unites.agrees_iff.1 agrees
    obtain ⟨x, first⟩ := exists_leave_iff.2 (both a (by simp))
    obtain ⟨y, second⟩ := exists_leave_iff.2 (both b (by simp))
    refine ⟨x, first, y, second, merge_eq_ok_iff.2 ?_⟩
    exact (unites.isAbove_iff (leave_eq_ok_iff.1 first).2 (leave_eq_ok_iff.1 second).2).1 above
  · rintro ⟨x, first, y, second, merged⟩
    have outside := merge_eq_ok_iff.1 merged
    have agree := agrees_of_outside first second outside.agrees_heads
    obtain ⟨m, united⟩ := exists_merge_iff.2 agree
    have unites := merge_eq_ok_iff.1 united
    obtain ⟨agreesFirst, aboveFirst⟩ := leave_eq_ok_iff.1 first
    obtain ⟨agreesSecond, aboveSecond⟩ := leave_eq_ok_iff.1 second
    refine ⟨m, united, leave_eq_ok_iff.2 ⟨unites.agrees_iff.2 ?_, ?_⟩⟩
    · simp [agreesFirst, agreesSecond]
    · exact (unites.isAbove_iff aboveFirst aboveSecond).2 outside

/-- Merging is compatible with binders. Inside of one, environments can be merged exactly if they
can be merged outside, with the same result and the same conflict, moved up. A union leaves a binder
exactly if both environments do and can be merged then, with the same result. -/
theorem merge_across_binders (a b : Environment) (types : List Ty) :
    (a.enter types).merge (b.enter types) =
        (match a.merge b with
        | .ok m => .ok (m.enter types)
        | .error c => .error ⟨c.index + types.length, c.bound, c.found⟩) ∧
      (a.merge b >>= fun m => m.leave types).toOption =
        (a.leave types >>= fun x => b.leave types >>= fun y => x.merge y).toOption := by
  constructor
  · cases merged : a.merge b with
    | ok m => exact merge_eq_ok_iff.2 ((merge_eq_ok_iff.1 merged).enter types)
    | error c => exact merge_eq_error_iff.2 ((merge_eq_error_iff.1 merged).enter types)
  · rw [toOption_eq_iff]
    intro p
    rw [leave_merge_eq_ok_iff, bind_eq_ok_iff]
    simp only [bind_eq_ok_iff]

end Environment

end GrammarSearch
