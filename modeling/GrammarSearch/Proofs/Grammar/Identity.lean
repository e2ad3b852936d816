import GrammarSearch.Grammar.Basic
import GrammarSearch.Proofs.Json.Canonical

/-!
# The identity of grammars

A grammar is identified by its name and its catalogue: of every production, in the order of
declaration, the symbol, whether it takes parameters, and the signature. A grammar always has a
canonical text, and grammars with one canonical text have one name and one catalogue
(`Grammar.compact_eq_iff`).
-/

namespace GrammarSearch

/-! ## Types -/

namespace Ty

mutual

/-- The JSON value of a type is in canonical form. -/
theorem inOrder_toJson (t : Ty) : t.toJson.InOrder := by
  cases t with
  | atomic name =>
    rw [toJson]
    exact Json.inOrder_object (List.pairwise_singleton _ _) (by simpa using Json.inOrder_text name)
  | list element =>
    rw [toJson]
    exact Json.inOrder_object (List.pairwise_singleton _ _) (by simpa using element.inOrder_toJson)
  | tensor element shape =>
    have dimensions : (Json.array (shape.map fun d => Json.ofNat d.toNat)).InOrder :=
      Json.inOrder_array fun item member => by
        obtain ⟨d, -, rfl⟩ := List.mem_map.1 member
        exact Json.inOrder_ofNat_toNat d
    have parts : (Json.object [("element", element.toJson),
        ("shape", .array (shape.map fun d => .ofNat d.toNat))]).InOrder :=
      Json.inOrder_object (show ["element", "shape"].Pairwise (· < ·) by decide)
        (by simpa using ⟨element.inOrder_toJson, dimensions⟩)
    rw [toJson]
    exact Json.inOrder_object (List.pairwise_singleton _ _) (by simpa using parts)
  | arrow inputs output =>
    have items : (Json.array (toJsonList inputs)).InOrder :=
      Json.inOrder_array (inOrder_of_mem_toJsonList inputs)
    have parts : (Json.object [("inputs", .array (toJsonList inputs)),
        ("output", output.toJson)]).InOrder :=
      Json.inOrder_object (show ["inputs", "output"].Pairwise (· < ·) by decide)
        (by simpa using ⟨items, output.inOrder_toJson⟩)
    rw [toJson]
    exact Json.inOrder_object (List.pairwise_singleton _ _) (by simpa using parts)

theorem inOrder_of_mem_toJsonList : ∀ (ts : List Ty), ∀ item ∈ toJsonList ts, item.InOrder
  | [], _, absent => by cases absent
  | t :: ts, item, member => by
      rcases List.mem_cons.1 member with here | later
      · rw [here]
        exact t.inOrder_toJson
      · exact inOrder_of_mem_toJsonList ts item later

end

theorem shape_eq_of_map_ofNat_eq {shape other : List UInt64}
    (same : (shape.map fun d => Json.ofNat d.toNat) = other.map fun d => Json.ofNat d.toNat) :
    shape = other := by
  refine List.map_injective_iff.2 (fun d e equal => ?_) same
  simp only [Json.ofNat, Json.number.injEq, Json.Number.integer.injEq, Int.natCast_inj] at equal
  exact UInt64.toNat_inj.1 equal

mutual

/-- Types with one JSON value are one type. -/
theorem toJson_injective {t u : Ty} (same : t.toJson = u.toJson) : t = u := by
  cases t with
  | atomic name =>
    cases u with
    | atomic other =>
      simp only [toJson, Json.object.injEq, List.cons.injEq, Prod.mk.injEq, Json.text.injEq,
        true_and, and_true] at same
      rw [same]
    | _ => simp [toJson] at same
  | list element =>
    cases u with
    | list other =>
      simp only [toJson, Json.object.injEq, List.cons.injEq, Prod.mk.injEq, true_and,
        and_true] at same
      rw [toJson_injective same]
    | _ => simp [toJson] at same
  | tensor element shape =>
    cases u with
    | tensor other otherShape =>
      simp only [toJson, Json.object.injEq, List.cons.injEq, Prod.mk.injEq, Json.array.injEq,
        true_and, and_true] at same
      rw [toJson_injective same.1, shape_eq_of_map_ofNat_eq same.2]
    | _ => simp [toJson] at same
  | arrow inputs output =>
    cases u with
    | arrow others other =>
      simp only [toJson, Json.object.injEq, List.cons.injEq, Prod.mk.injEq, Json.array.injEq,
        true_and, and_true] at same
      rw [toJsonList_injective same.1, toJson_injective same.2]
    | _ => simp [toJson] at same

theorem toJsonList_injective : ∀ {ts us : List Ty}, toJsonList ts = toJsonList us → ts = us
  | [], [], _ => rfl
  | [], _ :: _, same => by cases same
  | _ :: _, [], same => by cases same
  | t :: ts, u :: us, same => by
      simp only [toJsonList, List.cons.injEq] at same
      rw [toJson_injective same.1, toJsonList_injective same.2]

end

end Ty

/-! ## Catalogues -/

namespace Grammar

/-- An entry of a grammar's catalogue: symbol, whether it takes parameters, arguments and result. -/
structure Entry where
  symbol : String
  isParameterized : Bool
  arguments : List Ty
  result : Ty

namespace Entry

/-- An entry as a JSON value. -/
def toJson (e : Entry) : Json :=
  .object [("parameterized", .bool e.isParameterized),
    ("signature", (Ty.arrow e.arguments e.result).toJson), ("symbol", .text e.symbol)]

theorem inOrder_toJson (e : Entry) : e.toJson.InOrder := by
  refine Json.inOrder_object
    (show ["parameterized", "signature", "symbol"].Pairwise (· < ·) by decide) ?_
  simpa using ⟨Json.inOrder_bool _, Ty.inOrder_toJson _, Json.inOrder_text _⟩

theorem toJson_injective : Function.Injective toJson := by
  intro e f same
  rcases e with ⟨symbol, isParameterized, arguments, result⟩
  rcases f with ⟨otherSymbol, otherKind, otherArguments, otherResult⟩
  simp only [toJson, Json.object.injEq, List.cons.injEq, Prod.mk.injEq, Json.bool.injEq,
    Json.text.injEq, true_and, and_true] at same
  obtain ⟨parameterized, signature, symbols⟩ := same
  obtain ⟨inputs, output⟩ := Ty.arrow.inj (Ty.toJson_injective signature)
  rw [parameterized, symbols, inputs, output]

end Entry

variable {V W : Type}

/-- The entry of a production. -/
def entry (p : Production V) : Entry :=
  ⟨p.symbol, p.isParameterized, p.signature.arguments, p.signature.result⟩

/-- The entries of the productions, in the order of declaration. -/
def entries (g : Grammar V) : List Entry := g.productions.map entry

/-- Meanings are no part of the JSON value of a grammar. -/
theorem toJson_eq (g : Grammar V) :
    g.toJson =
      .object [("entries", .array (g.entries.map Entry.toJson)), ("name", .text g.name)] := by
  rw [toJson, entries, List.map_map]
  rfl

/-- The JSON value of a grammar is in canonical form. -/
theorem inOrder_toJson (g : Grammar V) : g.toJson.InOrder := by
  have items : (Json.array (g.entries.map Entry.toJson)).InOrder :=
    Json.inOrder_array fun item member => by
      obtain ⟨e, -, rfl⟩ := List.mem_map.1 member
      exact e.inOrder_toJson
  rw [toJson_eq]
  refine Json.inOrder_object (show ["entries", "name"].Pairwise (· < ·) by decide) ?_
  simpa using ⟨items, Json.inOrder_text g.name⟩

theorem toJson_eq_iff {g : Grammar V} {h : Grammar W} :
    g.toJson = h.toJson ↔ g.name = h.name ∧ g.entries = h.entries := by
  rw [toJson_eq, toJson_eq]
  constructor
  · intro same
    simp only [Json.object.injEq, List.cons.injEq, Prod.mk.injEq, Json.array.injEq, Json.text.injEq,
      true_and, and_true] at same
    exact ⟨same.2, List.map_injective_iff.2 Entry.toJson_injective same.1⟩
  · intro same
    rw [same.1, same.2]

/-- Every grammar has a canonical text. -/
theorem canonical_toJson (g : Grammar V) : g.toJson.canonical = .ok g.toJson.compact :=
  g.inOrder_toJson.canonical_eq

/-- Grammars have one canonical text if they have one name and one catalogue. -/
theorem compact_eq_iff {g : Grammar V} {h : Grammar W} :
    g.toJson.compact = h.toJson.compact ↔ g.name = h.name ∧ g.entries = h.entries := by
  rw [← toJson_eq_iff]
  exact ⟨g.inOrder_toJson.eq_of_compact_eq h.inOrder_toJson, congrArg Json.compact⟩

end Grammar

end GrammarSearch
