import GrammarSearch.Proofs.Grammar.Preparation
import GrammarSearch.Proofs.Json.Members
import GrammarSearch.Proofs.Program.Context
import GrammarSearch.Proofs.Text.Reader
import Mathlib.Order.Bounds.Basic

/-!
# Symbols and productions

No two productions of a grammar have one symbol. Productions of which two have one are refused, and
the symbol that is told is the first that stands a second time
(`Grammar.ofProductions_eq_error_iff`). So a symbol stands for at most one production
(`Grammar.production?_eq_some_iff_alone`).

Productions can also be found through an index, a table of positions under symbols that is made by
entering one production after the other (`Grammar.index`). It is refused where the productions are,
and finds what a search through the productions finds (`Grammar.production?_eq_index`).
-/

namespace GrammarSearch

namespace Grammar

variable {V : Type} {symbols before : List String} {symbol : String} {i : Nat}

/-! ## Repeated symbols -/

/-- The symbol at a position stands at an earlier one too. -/
def Recurs (symbols : List String) (i : Nat) : Prop :=
  ∃ symbol, symbols[i]? = some symbol ∧ symbol ∈ symbols.take i

theorem nodup_take_iff : (symbols.take i).Nodup ↔ ∀ j < i, ¬Recurs symbols j := by
  induction i with
  | zero => simp
  | succ i ih =>
    have last : (symbols.take (i + 1)).Nodup ↔ (symbols.take i).Nodup ∧ ¬Recurs symbols i := by
      rw [List.take_add_one]
      cases here : symbols[i]? with
      | none => simp [Recurs, here]
      | some symbol => simp [Recurs, here, ← List.concat_eq_append, List.nodup_concat, and_comm]
    rw [last, ih, Nat.forall_lt_succ_right]

/-- Symbols differ from one another if none recurs. -/
theorem nodup_iff_not_recurs : symbols.Nodup ↔ ∀ i, ¬Recurs symbols i := by
  constructor
  · intro nodup i
    exact nodup_take_iff.1 (nodup.sublist (List.take_sublist (i + 1) symbols)) i (Nat.lt_succ_self i)
  · intro fresh
    rw [← List.take_length (l := symbols), nodup_take_iff]
    exact fun j _ => fresh j

/-- A symbol that stands after different symbols, among them itself, is the first to recur. -/
theorem isLeast_recurs (nodup : before.Nodup) (again : symbol ∈ before) (rest : List String) :
    IsLeast {i | Recurs (before ++ symbol :: rest) i} before.length := by
  refine ⟨⟨symbol, by simp, by simpa using again⟩, fun i recurs => ?_⟩
  by_contra earlier
  refine nodup_take_iff.1 ?_ i (Nat.lt_of_not_le earlier) recurs
  rwa [List.take_left]

/-- After symbols that differ from one another the search goes on to the first that recurs. -/
theorem firstRepeated?_append (nodup : before.Nodup) (rest : List String) :
    firstRepeated? before.reverse rest = some symbol ↔
      ∃ i, IsLeast {i | Recurs (before ++ rest) i} i ∧ (before ++ rest)[i]? = some symbol := by
  induction rest generalizing before with
  | nil =>
    rw [List.append_nil, firstRepeated?]
    constructor
    · intro absent
      cases absent
    · intro found
      obtain ⟨i, least, -⟩ := found
      exact absurd least.1 (nodup_iff_not_recurs.1 nodup i)
  | cons next rest ih =>
    rw [firstRepeated?]
    by_cases again : next ∈ before
    · have least := isLeast_recurs nodup again rest
      rw [if_pos (List.mem_reverse.2 again)]
      constructor
      · intro same
        exact ⟨before.length, least, by simpa using same⟩
      · intro found
        obtain ⟨i, leastAt, here⟩ := found
        rw [leastAt.unique least] at here
        simpa using here
    · have longer : (before ++ [next]).Nodup := by
        simpa [← List.concat_eq_append, List.nodup_concat] using ⟨again, nodup⟩
      rw [if_neg (mt List.mem_reverse.1 again), ← List.reverse_concat, ih longer,
        List.append_assoc, List.singleton_append]

/-- The search for a repeated symbol finds the first one that recurs. -/
theorem firstRepeated?_eq_some_iff : firstRepeated? [] symbols = some symbol ↔
    ∃ i, IsLeast {i | Recurs symbols i} i ∧ symbols[i]? = some symbol :=
  firstRepeated?_append List.nodup_nil symbols

/-- Not the symbol that stands first, but the one that recurs first. -/
example : firstRepeated? [] ["add", "one", "one", "add"] = some "one" := by decide

/-! ## Building a grammar -/

variable {name : String} {productions : List (Production V)} {g : Grammar V} {e : GrammarError}

theorem ofProductions_eq_error_iff_repeated : ofProductions name productions = .error e ↔
    ∃ symbol, firstRepeated? [] (productions.map (·.symbol)) = some symbol ∧
      e = .duplicateSymbol symbol := by
  unfold ofProductions
  split
  · next symbol repeated => simp [repeated, eq_comm]
  · next none => simp [none]

/-- Productions are refused for the first of their symbols that recurs. -/
theorem ofProductions_eq_error_iff : ofProductions name productions = .error e ↔
    ∃ i production, IsLeast {i | Recurs (productions.map (·.symbol)) i} i ∧
      productions[i]? = some production ∧ e = .duplicateSymbol production.symbol := by
  rw [ofProductions_eq_error_iff_repeated]
  constructor
  · intro repeated
    obtain ⟨symbol, found, rfl⟩ := repeated
    obtain ⟨i, least, here⟩ := firstRepeated?_eq_some_iff.1 found
    rw [List.getElem?_map, Option.map_eq_some_iff] at here
    obtain ⟨production, at_i, rfl⟩ := here
    exact ⟨i, production, least, at_i, rfl⟩
  · intro recurring
    obtain ⟨i, production, least, at_i, rfl⟩ := recurring
    refine ⟨production.symbol, firstRepeated?_eq_some_iff.2 ⟨i, least, ?_⟩, rfl⟩
    rw [List.getElem?_map, at_i, Option.map_some]

/-- The grammar that is built has the name and the productions that it was built from. -/
theorem ofProductions_eq_ok_iff :
    ofProductions name productions = .ok g ↔ g.name = name ∧ g.productions = productions := by
  have build {h : Grammar V} (built : ofProductions name productions = .ok h) :
      h.name = name ∧ h.productions = productions := by
    unfold ofProductions at built
    split at built
    · cases built
    · cases built
      exact ⟨rfl, rfl⟩
  constructor
  · exact build
  · intro same
    obtain ⟨rfl, rfl⟩ := same
    cases built : ofProductions g.name g.productions with
    | ok h =>
      obtain ⟨names, lists⟩ := build built
      rcases g with ⟨name, productions, distinct⟩
      rcases h with ⟨other, others, distinct'⟩
      obtain rfl : other = name := names
      obtain rfl : others = productions := lists
      rfl
    | error e =>
      obtain ⟨i, -, least, -⟩ := ofProductions_eq_error_iff.1 built
      exact absurd least.1 (nodup_iff_not_recurs.1 g.distinct i)

/-- Productions are refused if two of them have one symbol. -/
theorem exists_ofProductions_error_iff :
    (∃ e, ofProductions name productions = .error e) ↔
      ¬(productions.map (·.symbol)).Nodup := by
  constructor
  · intro refused
    obtain ⟨e, refused⟩ := refused
    obtain ⟨i, -, least, -⟩ := ofProductions_eq_error_iff.1 refused
    exact fun nodup => nodup_iff_not_recurs.1 nodup i least.1
  · intro twice
    cases built : ofProductions name productions with
    | error e => exact ⟨e, rfl⟩
    | ok g =>
      obtain ⟨-, rfl⟩ := ofProductions_eq_ok_iff.1 built
      exact absurd g.distinct twice

/-! ## Looking up -/

theorem production?_eq_some_iff {production : Production V} :
    g.production? symbol = some production ↔
      ∃ i : Nat, g.productions[i]? = some production ∧ production.symbol = symbol := by
  constructor
  · intro found
    obtain ⟨same, member⟩ := symbol_of_production? found
    obtain ⟨i, at_i⟩ := List.mem_iff_getElem?.1 member
    exact ⟨i, at_i, same⟩
  · intro stands
    obtain ⟨i, at_i, rfl⟩ := stands
    exact production?_symbol (List.mem_of_getElem? at_i)

/-- A symbol is looked up to the production that alone has it. -/
theorem production?_eq_some_iff_alone {production : Production V} :
    g.production? symbol = some production ↔
      ∃ i, g.productions[i]? = some production ∧
        ∀ (j : Nat) (other : Production V), g.productions[j]? = some other →
          (other.symbol = symbol ↔ j = i) := by
  rw [production?_eq_some_iff]
  refine exists_congr fun i => and_congr_right fun at_i => ⟨fun same j other at_j => ?_, ?_⟩
  · constructor
    · intro equal
      exact index_eq_of_symbol_eq at_j at_i (equal.trans same.symm)
    · intro here
      rw [here, at_i, Option.some.injEq] at at_j
      rw [← at_j, same]
  · intro only
    exact (only i production at_i).2 rfl

theorem exists_production?_iff :
    (∃ production, g.production? symbol = some production) ↔ symbol ∈ g.symbols := by
  constructor
  · intro known
    obtain ⟨production, found⟩ := known
    obtain ⟨rfl, member⟩ := symbol_of_production? found
    exact List.mem_map_of_mem member
  · intro listed
    obtain ⟨production, member, rfl⟩ := List.mem_map.1 listed
    exact ⟨production, production?_symbol member⟩

/-- A program is covered if the symbols of all its nodes are symbols of the grammar. -/
theorem covers_iff {p : Program} :
    g.covers p = true ↔
      ∀ path part, p.subtree? path = some part → part.symbol ∈ g.symbols := by
  have covered : g.covers p = true ↔ ∀ symbol ∈ p.symbols, symbol ∈ g.symbols := by
    simp only [covers, List.all_eq_true, Option.isSome_iff_exists, exists_production?_iff]
  rw [covered]
  constructor
  · intro all path part found
    exact all part.symbol (Program.mem_symbols_iff.2 ⟨path, part, found, rfl⟩)
  · intro all symbol member
    obtain ⟨path, part, found, rfl⟩ := Program.mem_symbols_iff.1 member
    exact all path part found

/-! ## The index -/

/-- Positions under symbols. -/
abbrev Index := List (String × Nat)

/-- The index with one more production entered at its position, unless its symbol has a position
already. -/
def Index.enter (index : Index) (entry : Production V × Nat) : Except GrammarError Index :=
  match index.lookup entry.1.symbol with
  | some _ => .error (.duplicateSymbol entry.1.symbol)
  | none => .ok (Keyed.insert entry.1.symbol entry.2 index)

/-- The index of productions, entered one after the other. -/
def index (productions : List (Production V)) : Except GrammarError Index :=
  productions.zipIdx.foldlM Index.enter []

/-- The index tells where the productions are that were entered. -/
def Index.Tells (index : Index) (entries : List (Production V × Nat)) : Prop :=
  ∀ symbol i, index.lookup symbol = some i ↔
    ∃ production, (production, i) ∈ entries ∧ production.symbol = symbol

variable {positions next : Index} {entries : List (Production V × Nat)}
  {entry : Production V × Nat}

theorem Index.enter_of_known {i : Nat} (known : positions.lookup entry.1.symbol = some i) :
    positions.enter entry = .error (.duplicateSymbol entry.1.symbol) := by
  rw [Index.enter, known]

theorem Index.enter_of_free (free : positions.lookup entry.1.symbol = none) :
    positions.enter entry = .ok (Keyed.insert entry.1.symbol entry.2 positions) := by
  rw [Index.enter, free]

/-- One more production is told by the index that it was entered in. -/
theorem Index.Tells.enter (tells : positions.Tells entries)
    (entered : positions.enter entry = .ok next) : next.Tells (entries ++ [entry]) := by
  cases free : positions.lookup entry.1.symbol with
  | some i =>
    rw [Index.enter_of_known free] at entered
    cases entered
  | none =>
    obtain rfl := Except.ok.inj ((Index.enter_of_free free).symm.trans entered)
    rcases entry with ⟨last, position⟩
    intro symbol i
    have told : (∃ production, (production, i) ∈ entries ++ [(last, position)] ∧
        production.symbol = symbol) ↔
        positions.lookup symbol = some i ∨ last.symbol = symbol ∧ position = i := by
      rw [tells symbol i]
      simp only [List.mem_append, List.mem_singleton, Prod.mk.injEq, or_and_right, exists_or]
      simp [eq_comm, and_comm]
    rw [told, Keyed.lookup_insert]
    by_cases same : symbol = last.symbol
    · simp [same, free]
    · simp [same, Ne.symm same]

/-- The index of productions tells the position of every symbol. -/
theorem lookup_index (indexed : index productions = .ok positions) :
    positions.lookup symbol = some i ↔
      ∃ production, productions[i]? = some production ∧ production.symbol = symbol := by
  have tells : positions.Tells productions.zipIdx :=
    foldlM_induction (fun _ => True) (motive := Index.Tells) (fun symbol i => by simp)
      (fun _ _ _ _ _ earlier entered => earlier.enter entered) (fun _ _ => trivial) indexed
  simp only [tells symbol i, List.mk_mem_zipIdx_iff_getElem?]

/-- Productions are entered until the first one whose symbol was seen before. -/
theorem foldlM_enter_eq_error_iff {seen : List String}
    (entered : ∀ symbol, (positions.lookup symbol).isSome = true ↔ symbol ∈ seen) (start : Nat) :
    (productions.zipIdx start).foldlM Index.enter positions = .error e ↔
      ∃ symbol, firstRepeated? seen (productions.map (·.symbol)) = some symbol ∧
        e = .duplicateSymbol symbol := by
  induction productions generalizing positions seen start with
  | nil =>
    constructor
    · intro refused
      cases refused
    · intro repeated
      obtain ⟨symbol, absent, -⟩ := repeated
      cases absent
  | cons production productions ih =>
    rw [List.zipIdx_cons, List.map_cons, firstRepeated?]
    cases found : positions.lookup production.symbol with
    | some i =>
      have again : production.symbol ∈ seen := (entered _).1 (by rw [found, Option.isSome_some])
      rw [if_pos again, List.foldlM_cons, Index.enter_of_known found]
      constructor
      · intro refused
        exact ⟨production.symbol, rfl, (Except.error.inj refused).symm⟩
      · intro repeated
        obtain ⟨symbol, same, rfl⟩ := repeated
        rw [← Option.some.inj same]
        rfl
    | none =>
      have fresh : production.symbol ∉ seen := fun member => by
        simpa [found] using (entered production.symbol).2 member
      rw [if_neg fresh, foldlM_cons_of_ok (Index.enter_of_free found)]
      refine ih (fun symbol => ?_) (start + 1)
      rw [Keyed.lookup_insert, List.mem_cons, ← entered symbol]
      by_cases same : symbol = production.symbol <;> simp [same]

/-- The index is refused where the productions are. -/
theorem index_eq_error_iff :
    index productions = .error e ↔ ofProductions name productions = .error e := by
  rw [ofProductions_eq_error_iff_repeated]
  exact foldlM_enter_eq_error_iff (fun symbol => by simp) 0

/-- A symbol is looked up to the production at its position in the index. -/
theorem production?_eq_index (indexed : index g.productions = .ok positions) (symbol : String) :
    g.production? symbol = (positions.lookup symbol).bind fun i => g.productions[i]? := by
  ext production
  rw [production?_eq_some_iff, Option.bind_eq_some_iff]
  refine exists_congr fun i => ?_
  rw [lookup_index indexed]
  constructor
  · intro stands
    exact ⟨⟨production, stands⟩, stands.1⟩
  · intro told
    obtain ⟨⟨other, at_other, same⟩, at_i⟩ := told
    obtain rfl := Option.some.inj (at_other.symm.trans at_i)
    exact ⟨at_i, same⟩

theorem exists_index (g : Grammar V) : ∃ positions, index g.productions = .ok positions := by
  cases indexed : index g.productions with
  | ok positions => exact ⟨positions, rfl⟩
  | error e =>
    have refused : ofProductions g.name g.productions = .error e := index_eq_error_iff.1 indexed
    rw [ofProductions_eq_ok_iff.2 ⟨rfl, rfl⟩] at refused
    cases refused

/-- Productions make a grammar exactly if no two have one symbol, and otherwise the symbol is told
that stands at the first position whose symbol stands at an earlier one too. In a grammar a symbol
is looked up to the one production that has it, and finds one if it is listed; a program is covered
if the symbols of all its nodes are listed. The index is refused where the productions are, with the
same fault; it tells the position of every listed symbol and of no other, and the production that is
looked up stands there. -/
theorem symbols_identify_productions (name : String) (productions : List (Production V)) :
    ((∃ e, ofProductions name productions = .error e) ↔
      ¬(productions.map (·.symbol)).Nodup) ∧
    (∀ e, ofProductions name productions = .error e ↔
      ∃ i production, IsLeast {i | Recurs (productions.map (·.symbol)) i} i ∧
        productions[i]? = some production ∧ e = .duplicateSymbol production.symbol) ∧
    (∀ e, index productions = .error e ↔ ofProductions name productions = .error e) ∧
    ∀ g : Grammar V, ofProductions name productions = .ok g →
      g.name = name ∧ g.productions = productions ∧
      (∀ symbol, (∃ production, g.production? symbol = some production) ↔ symbol ∈ g.symbols) ∧
      (∀ symbol production, g.production? symbol = some production ↔
        ∃ i, productions[i]? = some production ∧
          ∀ (j : Nat) (other : Production V), productions[j]? = some other →
            (other.symbol = symbol ↔ j = i)) ∧
      (∀ p : Program, g.covers p = true ↔
        ∀ path part, p.subtree? path = some part → part.symbol ∈ g.symbols) ∧
      ∃ positions, index productions = .ok positions ∧ ∀ symbol,
        (∀ i, positions.lookup symbol = some i ↔
          ∃ production, productions[i]? = some production ∧ production.symbol = symbol) ∧
        g.production? symbol = (positions.lookup symbol).bind fun i => productions[i]? := by
  refine ⟨exists_ofProductions_error_iff, fun e => ofProductions_eq_error_iff,
    fun e => index_eq_error_iff, ?_⟩
  intro g built
  obtain ⟨rfl, rfl⟩ := ofProductions_eq_ok_iff.1 built
  obtain ⟨positions, indexed⟩ := exists_index g
  exact ⟨rfl, rfl, fun symbol => exists_production?_iff,
    fun symbol production => production?_eq_some_iff_alone, fun p => covers_iff, positions, indexed,
    fun symbol => ⟨fun i => lookup_index indexed, production?_eq_index indexed symbol⟩⟩

end Grammar

end GrammarSearch
