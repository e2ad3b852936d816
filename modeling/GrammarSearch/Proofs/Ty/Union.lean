import GrammarSearch.Proofs.Ty.Bindings

/-!
# Unions of environments

An environment unites others if it binds exactly what one of them binds (`Environment.Unites`).
There is at most one such environment, and there is one if and only if any two of the others agree.
It depends on nothing but which environments are united, so neither the order in which they are
merged nor the way in which merges are nested is of account.

`Environment.merge` and `Environment.mergeAll` give the union where there is one
(`Environment.merge_eq_ok_iff`, `Environment.mergeAll_eq_ok_iff`), and else a merge of two tells
their first conflict. The laws of merging (`merge_unites`) are read off these.
-/

namespace GrammarSearch

/-! ## Results -/

section Results

variable {ε α β : Type}

theorem bind_eq_ok_iff {x : Except ε α} {f : α → Except ε β} {b : β} :
    x >>= f = .ok b ↔ ∃ a, x = .ok a ∧ f a = .ok b := by
  cases x with
  | error e =>
    constructor
    · rintro ⟨⟩
    · rintro ⟨_, ⟨⟩, -⟩
  | ok a =>
    constructor
    · exact fun result => ⟨a, rfl, result⟩
    · rintro ⟨_, ⟨⟩, result⟩
      exact result

/-- Two results are alike if both fail, or if both succeed with one value. -/
theorem toOption_eq_iff {x y : Except ε α} :
    x.toOption = y.toOption ↔ ∀ a, x = .ok a ↔ y = .ok a := by
  have value (z : Except ε α) (a : α) : z.toOption = some a ↔ z = .ok a := by
    cases z <;> simp [Except.toOption]
  constructor
  · intro alike a
    rw [← value x, ← value y, alike]
  · intro alike
    ext a
    rw [value, value, alike]

end Results

/-- The environment binds exactly what one of the others binds. -/
def Environment.Unites (m : Environment) (envs : List Environment) : Prop :=
  ∀ i t, m.get? i = some t ↔ ∃ env ∈ envs, env.get? i = some t

namespace Environment

variable {a b c m n : Environment} {envs others : List Environment}

/-! ## Unions -/

theorem Unites.unique (first : m.Unites envs) (second : n.Unites envs) : m = n :=
  ext fun i => Option.ext fun t => (first i t).trans (second i t).symm

theorem unites_congr (same : ∀ env, env ∈ envs ↔ env ∈ others) :
    m.Unites envs ↔ m.Unites others := by
  simp only [Unites, same]

theorem unites_singleton : m.Unites [a] ↔ m = a := by
  have self : a.Unites [a] := fun i t => by simp only [List.mem_singleton, exists_eq_left]
  exact ⟨fun unites => unites.unique self, fun same => same ▸ self⟩

theorem unites_pair :
    m.Unites [a, b] ↔ ∀ i t, m.get? i = some t ↔ a.get? i = some t ∨ b.get? i = some t := by
  simp only [Unites, List.mem_cons, List.not_mem_nil, or_false, exists_eq_or_imp, exists_eq_left]

theorem empty_unites_nil : empty.Unites [] := fun i t => by simp

/-- Environments that are united to one have no two types for an index. -/
theorem Unites.agrees (unites : m.Unites envs) (here : a ∈ envs) (there : b ∈ envs) :
    a.Agrees b := by
  intro i t u bound found
  have inFirst := (unites i t).2 ⟨a, here, bound⟩
  have inSecond := (unites i u).2 ⟨b, there, found⟩
  exact Option.some.inj (inFirst.symm.trans inSecond)

theorem Unites.agrees_heads (unites : m.Unites (a :: b :: others)) : a.Agrees b :=
  unites.agrees List.mem_cons_self (List.mem_cons_of_mem a List.mem_cons_self)

/-- A union agrees with what all that it unites agree with. -/
theorem Unites.agrees_iff (unites : m.Unites envs) : m.Agrees a ↔ ∀ env ∈ envs, env.Agrees a := by
  constructor
  · intro agrees env member i t u here there
    exact agrees i t u ((unites i t).2 ⟨env, member, here⟩) there
  · intro agree i t u here there
    obtain ⟨env, member, found⟩ := (unites i t).1 here
    exact agree env member i t u found there

/-- A union may be put in the place of what it unites. -/
theorem Unites.cons_iff (part : n.Unites envs) :
    m.Unites (n :: others) ↔ m.Unites (envs ++ others) := by
  have whole (i : Nat) (t : Ty) :
      (∃ env ∈ n :: others, env.get? i = some t) ↔
        ∃ env ∈ envs ++ others, env.get? i = some t := by
    simp only [List.mem_cons, List.mem_append, or_and_right, exists_or, exists_eq_left, part i t]
  exact forall₂_congr fun i t => iff_congr Iff.rfl (whole i t)

/-! ## Merging two environments -/

theorem merge_eq_error_iff {c : Conflict} : a.merge b = .error c ↔ c.Splits a b := by
  rw [← conflict?_eq_some_iff, merge]
  cases a.conflict? b.bindings with
  | none => exact ⟨nofun, nofun⟩
  | some d => rw [Except.error.injEq, Option.some.injEq]

/-- Merging gives the union. -/
theorem merge_eq_ok_iff : a.merge b = .ok m ↔ m.Unites [a, b] := by
  rw [merge]
  cases found : a.conflict? b.bindings with
  | some c =>
    exact ⟨nofun, fun unites =>
      absurd unites.agrees_heads (conflict?_eq_some_iff.1 found).not_agrees⟩
  | none =>
    have agrees := conflict?_eq_none_iff.1 found
    have united : (b.bindings.foldl (fun env binding => env.insert binding.1 binding.2) a).Unites
        [a, b] := by
      rw [unites_pair]
      intro i t
      rw [get?_foldl_insert, Option.or_eq_some_iff]
      change a.get? i = some t ∨ a.get? i = none ∧ b.get? i = some t ↔ _
      refine or_congr_right' fun unbound => and_iff_right_of_imp fun there => ?_
      cases here : a.get? i with
      | none => rfl
      | some u => exact absurd (here.trans (congrArg some (agrees i u t here there))) unbound
    rw [Except.ok.injEq]
    exact ⟨fun same => same ▸ united, fun unites => united.unique unites⟩

theorem exists_merge_iff : (∃ m, a.merge b = .ok m) ↔ a.Agrees b := by
  constructor
  · rintro ⟨m, merged⟩
    exact (merge_eq_ok_iff.1 merged).agrees_heads
  · intro agrees
    cases merged : a.merge b with
    | ok m => exact ⟨m, rfl⟩
    | error c => exact absurd agrees (merge_eq_error_iff.1 merged).not_agrees

@[simp] theorem merge_self (a : Environment) : a.merge a = .ok a :=
  merge_eq_ok_iff.2 (unites_pair.2 fun _ _ => or_self_iff.symm)

@[simp] theorem empty_merge (a : Environment) : empty.merge a = .ok a :=
  merge_eq_ok_iff.2 (empty_unites_nil.cons_iff.2 (unites_singleton.2 rfl))

@[simp] theorem merge_empty (a : Environment) : a.merge empty = .ok a :=
  merge_eq_ok_iff.2 (unites_pair.2 fun _ _ => by simp)

/-- The other way round a merge fails at the same index. -/
theorem merge_eq_error_swap {index : Nat} {t u : Ty} :
    a.merge b = .error ⟨index, t, u⟩ ↔ b.merge a = .error ⟨index, u, t⟩ := by
  rw [merge_eq_error_iff, merge_eq_error_iff]
  exact ⟨.symm, .symm⟩

/-- To unite environments, two of them may be merged first. -/
theorem exists_merge_and_unites_iff :
    (∃ n, a.merge b = .ok n ∧ m.Unites (n :: others)) ↔ m.Unites (a :: b :: others) := by
  constructor
  · rintro ⟨n, merged, unites⟩
    exact (merge_eq_ok_iff.1 merged).cons_iff.1 unites
  · intro unites
    obtain ⟨n, merged⟩ := exists_merge_iff.2 unites.agrees_heads
    exact ⟨n, merged, (merge_eq_ok_iff.1 merged).cons_iff.2 unites⟩

/-! ## Merging many environments -/

theorem foldlM_merge_eq_ok_iff : envs.foldlM merge a = .ok m ↔ m.Unites (a :: envs) := by
  induction envs generalizing a with
  | nil =>
    rw [List.foldlM_nil, unites_singleton, eq_comm]
    exact ⟨Except.ok.inj, congrArg Except.ok⟩
  | cons b envs ih =>
    rw [List.foldlM_cons, bind_eq_ok_iff, ← exists_merge_and_unites_iff]
    simp only [ih]

theorem mergeAll_eq_ok_iff : mergeAll envs = .ok m ↔ m.Unites envs :=
  foldlM_merge_eq_ok_iff.trans empty_unites_nil.cons_iff

/-- Environments can be united if any two of them agree. -/
theorem exists_unites_iff : (∃ m : Environment, m.Unites envs) ↔ envs.Pairwise Agrees := by
  constructor
  · rintro ⟨m, unites⟩
    exact List.pairwise_of_forall_mem_list fun a here b there => unites.agrees here there
  · intro agree
    induction envs with
    | nil => exact ⟨empty, empty_unites_nil⟩
    | cons a envs ih =>
      obtain ⟨first, later⟩ := List.pairwise_cons.1 agree
      obtain ⟨n, unites⟩ := ih later
      have agrees : n.Agrees a := unites.agrees_iff.2 fun b member => (first b member).symm
      obtain ⟨m, merged⟩ := exists_merge_iff.2 agrees
      have whole := unites.cons_iff.1 (merge_eq_ok_iff.1 merged)
      exact ⟨m, (unites_congr fun env => by simp [or_comm]).1 whole⟩

theorem merge_merge_left :
    (a.merge b >>= fun ab => ab.merge c) = .ok m ↔ m.Unites [a, b, c] := by
  simp only [bind_eq_ok_iff, merge_eq_ok_iff (b := c), exists_merge_and_unites_iff]

theorem merge_merge_right :
    (b.merge c >>= fun bc => a.merge bc) = .ok m ↔ m.Unites [a, b, c] := by
  have swapped (n : Environment) : m.Unites [a, n] ↔ m.Unites [n, a] :=
    unites_congr fun env => by simp [or_comm]
  simp only [bind_eq_ok_iff, merge_eq_ok_iff (a := a), swapped, exists_merge_and_unites_iff]
  exact unites_congr fun env => by simp only [List.mem_cons, List.not_mem_nil, or_false]; tauto

/-- The merge of two environments is their union, if they agree on every index that both bind, and
otherwise tells the first index where they do not; the other way round it does the same. It is
idempotent, commutative and associative, failures included, and has the empty environment as its
unit. Environments in a list can be merged exactly if any two of them agree, and their order is of
no account. -/
theorem merge_unites :
    (∀ a b : Environment, (∃ m, a.merge b = .ok m) ↔ a.Agrees b) ∧
    (∀ a b m : Environment, a.merge b = .ok m ↔
      ∀ i t, m.get? i = some t ↔ a.get? i = some t ∨ b.get? i = some t) ∧
    (∀ (a b : Environment) (c : Conflict), a.merge b = .error c ↔ c.Splits a b) ∧
    (∀ (a b : Environment) (index : Nat) (t u : Ty),
      a.merge b = .error ⟨index, t, u⟩ ↔ b.merge a = .error ⟨index, u, t⟩) ∧
    (∀ a : Environment, a.merge a = .ok a ∧ empty.merge a = .ok a ∧ a.merge empty = .ok a) ∧
    (∀ a b : Environment, (a.merge b).toOption = (b.merge a).toOption) ∧
    (∀ a b c : Environment, (a.merge b >>= fun ab => ab.merge c).toOption =
      (b.merge c >>= fun bc => a.merge bc).toOption) ∧
    (∀ envs : List Environment, (∃ m, mergeAll envs = .ok m) ↔ envs.Pairwise Agrees) ∧
    ∀ envs others : List Environment, envs.Perm others →
      (mergeAll envs).toOption = (mergeAll others).toOption := by
  refine ⟨fun a b => exists_merge_iff, fun a b m => merge_eq_ok_iff.trans unites_pair,
    fun a b c => merge_eq_error_iff, fun a b index t u => merge_eq_error_swap,
    fun a => ⟨merge_self a, empty_merge a, merge_empty a⟩, fun a b => ?_, fun a b c => ?_,
    fun envs => ?_, fun envs others perm => ?_⟩
  · simp only [toOption_eq_iff, merge_eq_ok_iff]
    exact fun m => unites_congr fun env => by simp [or_comm]
  · simp only [toOption_eq_iff, merge_merge_left, merge_merge_right, implies_true]
  · simp only [mergeAll_eq_ok_iff, exists_unites_iff]
  · simp only [toOption_eq_iff, mergeAll_eq_ok_iff]
    exact fun m => unites_congr fun env => perm.mem_iff

/-- Which conflict a failure tells does depend on the order. -/
example :
    let both := empty.enter [.atomic "int", .atomic "int"]
    let zero := empty.enter [.atomic "f"]
    let one : Environment := ⟨[(1, .atomic "f")], by decide⟩
    mergeAll [both, zero, one] = .error ⟨0, .atomic "int", .atomic "f"⟩ ∧
      mergeAll [both, one, zero] = .error ⟨1, .atomic "int", .atomic "f"⟩ := ⟨rfl, rfl⟩

end Environment

end GrammarSearch
