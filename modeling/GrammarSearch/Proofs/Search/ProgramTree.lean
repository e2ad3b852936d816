import GrammarSearch.Arithmetic.Sample
import GrammarSearch.Proofs.Program.Identity
import GrammarSearch.Proofs.Search.Typing
import Mathlib.Data.Set.Function

/-!
# The tree of programs

A partial program tells which productions made it, unless some production looks
like a hole: one without arguments whose symbol is that of a variable. Without
such productions the graph of programs is a tree, and the program alone
identifies the partial program, with its holes and their numbers. A search
identifies partial programs by digests of their programs, so it tells all of
them apart if SHA-256 does.
-/

namespace GrammarSearch

variable {V : Type} {g : Grammar V} {target : ScopedTy} {used others : List Nat}
  {p q : PartialProgram}

/-- No production without arguments has the symbol of a variable. -/
def Grammar.NoHoleConstant (g : Grammar V) : Prop :=
  ∀ production ∈ g.productions, production.arity = 0 → isVariable production.symbol = false

/-! ## Labels of holes -/

/-- The label is that of a leaf with the symbol of a variable. -/
def isHoleLabel : Option (String × Nat) → Bool
  | some (symbol, 0) => isVariable symbol
  | _ => false

theorem Hole.isHoleLabel_label (h : Hole) : isHoleLabel (some h.label) = true := by
  simp [isHoleLabel, Hole.label, Hole.symbol, isVariable]

theorem Grammar.NoHoleConstant.isHoleLabel_label? (apart : g.NoHoleConstant) (index : Nat) :
    isHoleLabel (g.label? index) = false := by
  unfold Grammar.label?
  cases at_index : g.productions[index]? with
  | none => rfl
  | some production =>
    have plain := apart production (List.mem_of_getElem? at_index)
    simp only [Option.map_some, Production.label]
    cases arity : production.arity with
    | zero => exact plain arity
    | succ n => rfl

/-- The productions used are read off the program: their nodes are those that are no holes. -/
theorem PartialProgram.LaidOut.map_label?_eq (apart : g.NoHoleConstant)
    (laid : p.LaidOut g target used) :
    used.map g.label? = (p.program.labels.map some).filter fun label => !isHoleLabel label := by
  have labels := laid.labels
  simp only [Program.labelsList, List.append_nil] at labels
  have made : (used.map g.label?).filter (fun label => !isHoleLabel label) = used.map g.label? :=
    List.filter_eq_self.2 fun label member => by
      obtain ⟨index, -, rfl⟩ := List.mem_map.1 member
      simp [apart.isHoleLabel_label? index]
  have opened : (p.holes.map fun h => some h.label).filter (fun label => !isHoleLabel label) = [] :=
    List.filter_eq_nil_iff.2 fun label member => by
      obtain ⟨h, -, rfl⟩ := List.mem_map.1 member
      simp [h.isHoleLabel_label]
  rw [labels, List.filter_append, made, opened, List.append_nil]

/-! ## One derivation for every partial program -/

theorem PartialProgram.LaidOut.unique (apart : g.NoHoleConstant)
    (laidP : p.LaidOut g target used) (laidQ : q.LaidOut g target others)
    (same : p.program = q.program) : used = others := by
  apply Grammar.eq_of_map_label?_eq laidP.isSome_label?
  rw [laidP.map_label?_eq apart, laidQ.map_label?_eq apart, same]

/-- The number of filled holes is the number of productions used. -/
theorem PartialProgram.LaidOut.filledCount_eq (laid : p.LaidOut g target used) :
    p.filledCount = used.length := by
  have count := laid.length_eq_nodeCount
  unfold PartialProgram.filledCount
  omega

/-- The program determines the partial program. -/
theorem Grammar.NoHoleConstant.eq_of_program_eq (apart : g.NoHoleConstant)
    (reachedP : (programGraph g target).Reachable p)
    (reachedQ : (programGraph g target).Reachable q) (same : p.program = q.program) : p = q := by
  obtain ⟨used, derivedP⟩ := Grammar.reachable_iff_derive?.1 reachedP
  obtain ⟨others, derivedQ⟩ := Grammar.reachable_iff_derive?.1 reachedQ
  have unique := (Grammar.laidOut_of_derive? derivedP).unique apart
    (Grammar.laidOut_of_derive? derivedQ) same
  rw [unique] at derivedP
  exact Option.some.inj (derivedP.symm.trans derivedQ)

theorem Grammar.NoHoleConstant.isTree (apart : g.NoHoleConstant) :
    (programGraph g target).IsTree := by
  intro choices walk p reachedP reachedQ
  obtain ⟨used, derivedP, rfl⟩ := Grammar.exists_derive?_of_walk? reachedP
  obtain ⟨others, derivedQ, rfl⟩ := Grammar.exists_derive?_of_walk? reachedQ
  have unique := (Grammar.laidOut_of_derive? derivedP).unique apart
    (Grammar.laidOut_of_derive? derivedQ) rfl
  rw [unique]

/-- Different derivations lead to different partial programs. -/
theorem Grammar.NoHoleConstant.derive?_inj (apart : g.NoHoleConstant)
    (derived : g.derive? (.root target) used = some p)
    (other : g.derive? (.root target) others = some p) : used = others :=
  (Grammar.laidOut_of_derive? derived).unique apart (Grammar.laidOut_of_derive? other) rfl

theorem Grammar.filledCount_of_derive? (derived : g.derive? (.root target) used = some p) :
    p.filledCount = used.length :=
  (Grammar.laidOut_of_derive? derived).filledCount_eq

/-! ## Digests -/

/-- The byte string of which a partial program's fingerprint is the digest. -/
def PartialProgram.hashed (p : PartialProgram) : ByteArray :=
  Domain.searchNode.tagged p.identity.toUTF8

/-- Different programs are hashed as different byte strings. -/
theorem PartialProgram.program_eq_of_hashed_eq (same : p.hashed = q.hashed) :
    p.program = q.program := by
  have texts : p.identity.toUTF8 = q.identity.toUTF8 := ByteArray.append_right_inj _ |>.1 same
  have identities : p.identity = q.identity := String.toByteArray_inj.1 texts
  simp only [PartialProgram.identity, Program.canonical_eq] at identities
  exact Program.eq_of_compact_eq identities

/-- SHA-256 does not collide on the byte strings of the partial programs. -/
def CollisionFree (nodes : Set PartialProgram) : Prop :=
  Set.InjOn sha256 (PartialProgram.hashed '' nodes)

theorem CollisionFree.mono {nodes fewer : Set PartialProgram} (free : CollisionFree nodes)
    (among : fewer ⊆ nodes) : CollisionFree fewer :=
  Set.InjOn.mono (Set.image_mono among) free

/-- A search that identifies partial programs by fingerprints tells them apart. -/
theorem CollisionFree.injOn_fingerprint {nodes : Set PartialProgram} (free : CollisionFree nodes)
    (apart : g.NoHoleConstant) (reached : ∀ p ∈ nodes, (programGraph g target).Reachable p) :
    Set.InjOn Fingerprinted.fingerprint nodes := by
  intro p memberP q memberQ same
  have hashed : p.hashed = q.hashed :=
    free (Set.mem_image_of_mem _ memberP) (Set.mem_image_of_mem _ memberQ) same
  exact apart.eq_of_program_eq (reached p memberP) (reached q memberQ)
    (PartialProgram.program_eq_of_hashed_eq hashed)

/-! ## Numbers of productions -/

/-- A walk fills a hole with every step. -/
theorem Grammar.filledCount_of_walk? {walk : List Nat}
    (reached : (programGraph g target).walk? (programGraph g target).root walk = some p) :
    p.filledCount = walk.length := by
  obtain ⟨indices, derived, rfl⟩ := Grammar.exists_derive?_of_walk? reached
  exact (Grammar.filledCount_of_derive? derived).trans (Grammar.length_choices derived).symm

theorem Grammar.exists_walk_iff (property : Nat → Prop) :
    (∃ walk, (programGraph g target).walk? (programGraph g target).root walk = some p ∧
      property walk.length) ↔ (programGraph g target).Reachable p ∧ property p.filledCount := by
  constructor
  · rintro ⟨walk, reached, holds⟩
    exact ⟨⟨walk, reached⟩, Grammar.filledCount_of_walk? reached ▸ holds⟩
  · rintro ⟨⟨walk, reached⟩, holds⟩
    exact ⟨walk, reached, Grammar.filledCount_of_walk? reached ▸ holds⟩

theorem Grammar.filledCount_of_mem_expand {child : PartialProgram}
    (reached : (programGraph g target).Reachable p) (member : child ∈ g.expand p) :
    child.filledCount = p.filledCount + 1 := by
  rcases reached with ⟨walk, before⟩
  obtain ⟨choice, step⟩ := List.mem_iff_getElem?.1 member
  have after : (programGraph g target).walk? (programGraph g target).root (walk ++ [choice]) =
      some child := Graph.walk?_concat.2 ⟨p, before, step⟩
  rw [Grammar.filledCount_of_walk? after, Grammar.filledCount_of_walk? before, List.length_append,
    List.length_singleton]

/-- The partial programs that at most so many productions make. -/
def Grammar.upTo (g : Grammar V) (target : ScopedTy) (count : Nat) : Set PartialProgram :=
  {p | (programGraph g target).Reachable p ∧ p.filledCount ≤ count}

theorem Grammar.upTo_mono {few many : Nat} (le : few ≤ many) :
    g.upTo target few ⊆ g.upTo target many :=
  fun _ ⟨reached, within⟩ => ⟨reached, Nat.le_trans within le⟩

/-! ## The order of declaration -/

/-- The order in which productions are declared decides in which order partial programs have their
children, and nothing else. -/
theorem Grammar.expand_perm {other : Grammar V} (perm : other.productions.Perm g.productions)
    (p : PartialProgram) : (other.expand p).Perm (g.expand p) := by
  unfold Grammar.expand
  cases p.selected? with
  | none => exact .refl _
  | some hole => exact (perm.filter _).filterMap _

theorem Grammar.reachable_of_perm {other : Grammar V}
    (perm : other.productions.Perm g.productions) (reached : (programGraph other target).Reachable p) :
    (programGraph g target).Reachable p :=
  reached.induction .root fun _ _ _ before member =>
    before.child ((Grammar.expand_perm perm _).subset member)

theorem Grammar.reachable_iff_of_perm {other : Grammar V}
    (perm : other.productions.Perm g.productions) :
    (programGraph other target).Reachable p ↔ (programGraph g target).Reachable p :=
  ⟨Grammar.reachable_of_perm perm, Grammar.reachable_of_perm perm.symm⟩

theorem Grammar.NoHoleConstant.of_perm (apart : g.NoHoleConstant) {other : Grammar V}
    (perm : other.productions.Perm g.productions) : other.NoHoleConstant :=
  fun production member => apart production (perm.subset member)

/-! ## Samples -/

/-- Sums of ones. -/
def Sample.sums : Grammar Int64 where
  name := "sums"
  productions :=
    [Sample.production "one" 0 (Sample.constant 1), Sample.production "add" 2 (Sample.binary (· + ·))]
  distinct := by decide

theorem Sample.noHoleConstant_sums : Sample.sums.NoHoleConstant := by
  intro production member _
  rcases List.mem_pair.1 member with rfl | rfl <;> decide

/-- The bits, and nothing to combine them with. -/
def Sample.bits : Grammar Int64 where
  name := "bits"
  productions :=
    [Sample.production "zero" 0 (Sample.constant 0), Sample.production "one" 0 (Sample.constant 1)]
  distinct := by decide

theorem Sample.noHoleConstant_bits : Sample.bits.NoHoleConstant := by
  intro production member _
  rcases List.mem_pair.1 member with rfl | rfl <;> decide

/-- The partial programs of the bits. -/
def Sample.bitPrograms : List PartialProgram :=
  [.root ⟨Sample.int, .empty⟩, ⟨.leaf "zero", [], 1⟩, ⟨.leaf "one", [], 1⟩]

theorem Sample.mem_bitPrograms
    (reached : (programGraph Sample.bits ⟨Sample.int, .empty⟩).Reachable p) :
    p ∈ Sample.bitPrograms := by
  have closed : ∀ parent ∈ Sample.bitPrograms, ∀ child ∈ Sample.bits.expand parent,
      child ∈ Sample.bitPrograms := by decide
  exact Graph.Reachable.induction (motive := (· ∈ Sample.bitPrograms)) List.mem_cons_self
    (fun parent child _ here member => closed parent here child member) reached

/-- The last two bits of the digests tell these programs apart. -/
theorem Sample.collisionFree_bits {nodes : Set PartialProgram}
    (reached : ∀ p ∈ nodes, (programGraph Sample.bits ⟨Sample.int, .empty⟩).Reachable p) :
    CollisionFree nodes := by
  have digests : Sample.bitPrograms.map (fun p => (sha256 p.hashed).value % 4) = [3, 0, 1] := by
    decide +kernel
  have distinct : (Sample.bitPrograms.map fun p => (sha256 p.hashed).value % 4).Nodup := by
    rw [digests]
    decide
  rintro _ ⟨p, memberP, rfl⟩ _ ⟨q, memberQ, rfl⟩ same
  have identical := List.inj_on_of_nodup_map distinct (Sample.mem_bitPrograms (reached p memberP))
    (Sample.mem_bitPrograms (reached q memberQ)) (by rw [same])
  rw [identical]

end GrammarSearch
