import GrammarSearch.Ty.Printer

/-!
# Typing environments

An environment gives types to variables, which are numbered by the binders
around them: zero is the innermost. Entering a binder moves the indices up and
leaving it moves them down again. The indices need not be contiguous, so the
bindings are kept in ascending order of index, and an environment is the map
from indices to types that `Environment.get?` reads.
-/

namespace GrammarSearch

/-- The types of the variables in scope, by index. -/
structure Environment where
  bindings : List (Nat × Ty)
  ascending : bindings.Pairwise fun a b => a.1 < b.1
deriving DecidableEq

/-- Two types that claim one variable. -/
structure Conflict where
  index : Nat
  bound : Ty
  found : Ty
deriving DecidableEq

/-- What a diagnostic says of the two types. -/
def Conflict.message (c : Conflict) : String :=
  "variable " ++ toString c.index ++ " is bound to " ++ c.bound.text ++ ", not " ++ c.found.text

namespace Environment

/-- No variable is bound. -/
def empty : Environment := ⟨[], .nil⟩

instance : Inhabited Environment := ⟨empty⟩

/-- The type bound at an index. -/
def get? (env : Environment) (index : Nat) : Option Ty :=
  env.bindings.lookup index

/-- One more than the highest bound index. -/
def size (env : Environment) : Nat :=
  match env.bindings.getLast? with
  | none => 0
  | some binding => binding.1 + 1

/-- No variable is bound. -/
def isEmpty (env : Environment) : Bool := env.bindings.isEmpty

/-! ## Binders -/

/-- Types numbered upwards from an index. -/
def numbered (index : Nat) : List Ty → List (Nat × Ty)
  | [] => []
  | t :: ts => (index, t) :: numbered (index + 1) ts

theorem numbered_bounds {index : Nat} {ts : List Ty} :
    ∀ b ∈ numbered index ts, index ≤ b.1 ∧ b.1 < index + ts.length := by
  induction ts generalizing index with
  | nil => simp [numbered]
  | cons t ts ih =>
    intro b hb
    rcases List.mem_cons.1 hb with rfl | hb
    · simp
    · have := ih b hb
      simp only [List.length_cons]
      omega

theorem numbered_ascending {index : Nat} {ts : List Ty} :
    (numbered index ts).Pairwise fun a b => a.1 < b.1 := by
  induction ts generalizing index with
  | nil => exact .nil
  | cons t ts ih => exact .cons (fun b hb => (numbered_bounds b hb).1) ih

/-- The environment inside a binder of the given types. The last of them gets index zero. -/
def enter (env : Environment) (types : List Ty) : Environment where
  bindings := numbered 0 types.reverse ++ env.bindings.map fun b => (b.1 + types.length, b.2)
  ascending := by
    refine List.pairwise_append.2 ⟨numbered_ascending, ?_, ?_⟩
    · exact List.pairwise_map.2 (env.ascending.imp fun h => by simpa using h)
    · intro a ha b hb
      obtain ⟨c, _, rfl⟩ := List.mem_map.1 hb
      have := (numbered_bounds a ha).2
      simp only [List.length_reverse] at this
      simp only
      omega

/-- The first of some bindings whose index is bound to another type. -/
def conflict? (env : Environment) (bindings : List (Nat × Ty)) : Option Conflict :=
  bindings.findSome? fun b =>
    match env.get? b.1 with
    | some bound => if bound = b.2 then none else some ⟨b.1, bound, b.2⟩
    | none => none

/-- The environment outside a binder of the given types. An index of the binder may be unbound,
but not bound to another type than the binder's. -/
def leave (env : Environment) (types : List Ty) : Except Conflict Environment :=
  match env.conflict? (numbered 0 types.reverse) with
  | some conflict => .error conflict
  | none => .ok
    { bindings := (env.bindings.filter fun b => types.length ≤ b.1).map
        fun b => (b.1 - types.length, b.2)
      ascending := by
        refine List.pairwise_map.2 (List.Pairwise.imp_of_mem ?_ (env.ascending.filter _))
        intro a b ha hb h
        have := of_decide_eq_true (List.mem_filter.1 ha).2
        simp only
        omega }

/-! ## Union -/

/-- Bindings in ascending order with one more; an index that is bound already keeps its type. -/
def insertBinding (index : Nat) (t : Ty) : List (Nat × Ty) → List (Nat × Ty)
  | [] => [(index, t)]
  | b :: rest =>
    if index < b.1 then (index, t) :: b :: rest
    else if index = b.1 then b :: rest
    else b :: insertBinding index t rest

theorem mem_insertBinding {index : Nat} {t : Ty} {bindings : List (Nat × Ty)} {a : Nat × Ty}
    (h : a ∈ insertBinding index t bindings) : a = (index, t) ∨ a ∈ bindings := by
  induction bindings with
  | nil => simpa [insertBinding] using h
  | cons b rest ih =>
    unfold insertBinding at h
    split at h
    · simpa using h
    · split at h
      · exact .inr h
      · rcases List.mem_cons.1 h with rfl | h
        · simp
        · exact (ih h).imp_right (List.mem_cons_of_mem _)

theorem insertBinding_ascending {index : Nat} {t : Ty} {bindings : List (Nat × Ty)}
    (h : bindings.Pairwise fun a b => a.1 < b.1) :
    (insertBinding index t bindings).Pairwise fun a b => a.1 < b.1 := by
  induction bindings with
  | nil => simp [insertBinding]
  | cons b rest ih =>
    obtain ⟨hb, hrest⟩ := List.pairwise_cons.1 h
    unfold insertBinding
    split
    · next lt =>
      refine .cons (fun c hc => ?_) h
      rcases List.mem_cons.1 hc with rfl | hc
      · exact lt
      · exact Nat.lt_trans lt (hb c hc)
    · next ge =>
      split
      · exact h
      · next ne =>
        refine .cons (fun c hc => ?_) (ih hrest)
        rcases mem_insertBinding hc with rfl | hc
        · simp only
          omega
        · exact hb c hc

/-- The environment with one more binding. -/
def insert (env : Environment) (index : Nat) (t : Ty) : Environment :=
  ⟨insertBinding index t env.bindings, insertBinding_ascending env.ascending⟩

/-- The union of two environments, unless some index has two types. -/
def merge (a b : Environment) : Except Conflict Environment :=
  match a.conflict? b.bindings with
  | some conflict => .error conflict
  | none => .ok (b.bindings.foldl (fun env binding => env.insert binding.1 binding.2) a)

/-- The union of environments from left to right. -/
def mergeAll (envs : List Environment) : Except Conflict Environment :=
  envs.foldlM merge empty

/-! ## Texts -/

/-- The text of an environment: `0=int,1=[f]`. -/
def text (env : Environment) : String :=
  String.intercalate "," (env.bindings.map fun b => toString b.1 ++ "=" ++ b.2.text)

/-- An environment as a JSON value: pairs of index and type. -/
def toJson (env : Environment) : Json :=
  .array (env.bindings.map fun b => .array [.ofNat b.1, b.2.toJson])

/-- The order of environments is that of their bindings. -/
instance : Ord Environment where
  compare a b := List.compareLex
    (fun x y => (compare x.1 y.1).then (compare x.2 y.2)) a.bindings b.bindings

end Environment

end GrammarSearch
