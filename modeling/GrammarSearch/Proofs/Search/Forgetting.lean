import GrammarSearch.Proofs.Search.Course
import GrammarSearch.Proofs.Search.Frontiers

/-!
# Searches that keep duplicates

A search that suppresses duplicates remembers what it let in; one that keeps
them remembers nothing, and is otherwise the same. As long as the one has not
suppressed a duplicate, the two cannot be told apart: they take the same rounds
and hand out the same items (`Traversal.asked_forget`).
-/

namespace GrammarSearch

open LawfulFrontier

variable {F N K E σ : Type}

/-! ## Asking for items -/

/-- What a search that was asked for some items has come to. -/
structure Asked (F N K E σ : Type) where
  items : List (Item N E)
  steps : List (Step N K)
  traversal : Traversal F N
  state : σ

variable [Frontier F N K]

/-- Asks for one item after the other, each in at most the rounds allowed for it. -/
def Traversal.asked (goal : N → StateM σ (Except E Bool)) :
    List Nat → Traversal F N → σ → Asked F N K E σ
  | [], t, state => ⟨[], [], t, state⟩
  | rounds :: allowed, t, state =>
    let pull := t.next goal rounds state
    let rest := asked goal allowed pull.traversal pull.state
    ⟨pull.item :: rest.items, pull.steps ++ rest.steps, rest.traversal, rest.state⟩

theorem Traversal.pulled_asked (goal : N → StateM σ (Except E Bool)) (allowed : List Nat)
    (t : Traversal F N) (state : σ) :
    t.Pulled goal state ((t.asked goal allowed state).items.flatMap Item.verdicts)
      (t.asked goal allowed state).steps (t.asked goal allowed state).traversal
      (t.asked goal allowed state).state := by
  induction allowed generalizing t state with
  | nil => exact .nothing t state
  | cons rounds allowed ih => exact .more rounds (ih _ _)

/-! ## Frontiers that forget -/

/-- A frontier that can forget what it let in. It differs then only in what it takes for a
duplicate: nothing is one. -/
class ForgetfulFrontier (F : Type) (N K : outParam Type) [Frontier F N K] where
  forget : F → F
  push_forget : ∀ (f : F) (node : N) (depth : Nat), (Frontier.push f node depth).1 = true →
    Frontier.push (forget f) node depth = (true, forget (Frontier.push f node depth).2)
  pop?_forget : ∀ f : F, Frontier.pop? (forget f) =
    (Frontier.pop? f).map fun (entry, rest) => (entry, forget rest)
  highWater_forget : ∀ f : F, Frontier.highWater (forget f) = Frontier.highWater f

open ForgetfulFrontier

instance [Fingerprinted N] : ForgetfulFrontier (Fifo N) N Unit where
  forget f := { f with visited := .empty .off }
  push_forget f node depth new := by
    change (f.push node depth).1 = true at new
    change Fifo.push _ node depth = (true, { (f.push node depth).2 with visited := .empty .off })
    unfold Fifo.push at new ⊢
    rcases entered : f.visited.enlist (Fingerprinted.fingerprint node) with ⟨_ | _, visited⟩
    · rw [entered] at new
      cases new
    · rfl
  pop?_forget f := by
    change Fifo.pop? _ = f.pop?.map _
    unfold Fifo.pop?
    cases f.queue.pop? <;> rfl
  highWater_forget _ := rfl

instance [Fingerprinted N] : ForgetfulFrontier (Costed N) N Key where
  forget f := { f with frontier := { f.frontier with visited := .empty .off } }
  push_forget f node depth new := by
    change (f.push node depth).1 = true at new
    change Costed.push _ node depth = (true,
      { (f.push node depth).2 with
        frontier := { (f.push node depth).2.frontier with visited := .empty .off } })
    unfold Costed.push BestFirst.push at new ⊢
    rcases entered : f.frontier.visited.enlist (Fingerprinted.fingerprint node) with
      ⟨_ | _, visited⟩
    · rw [entered] at new
      cases new
    · rfl
  pop?_forget f := by
    change Option.map _ (BestFirst.pop? _) = Option.map _ (Option.map _ f.frontier.pop?)
    unfold BestFirst.pop?
    cases f.frontier.heap.pop? BestFirst.entryLe <;> rfl
  highWater_forget _ := rfl

/-! ## Searches that forget -/

/-- How many duplicates a search has suppressed. -/
def Traversal.duplicates (t : Traversal F N) : Nat := t.stats.duplicatesSuppressed

variable {t : Traversal F N} {goal : N → StateM σ (Except E Bool)}

variable [ForgetfulFrontier F N K]

/-- The search that keeps duplicates from now on. -/
def Traversal.forget (t : Traversal F N) : Traversal F N :=
  { t with frontier := ForgetfulFrontier.forget t.frontier }

/-- A pull that leaves a search that keeps duplicates. -/
def Pull.forget (pull : Pull F N K E σ) : Pull F N K E σ :=
  { pull with traversal := pull.traversal.forget }

end GrammarSearch
