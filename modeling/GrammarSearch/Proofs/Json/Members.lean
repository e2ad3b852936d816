import GrammarSearch.Proofs.Json.Canonical
import GrammarSearch.Proofs.Lookup

/-!
# Objects as maps

An object means the map that takes a key to the value of its last member with this key
(`Json.member?`). Two values are the same if they differ at most in how the members of their objects
are written down, at whatever depth (`Json.Same`). Sorting keeps what a value means, and values that
mean the same are sorted to one value (`Json.same_iff_sorted_eq`).
-/

namespace GrammarSearch

/-! ## Look-up among entries -/

namespace Keyed

variable {α β : Type} {key other : String} {value : α} {entries more : List (String × α)}

/-- The entries are in strictly ascending order of their keys. -/
def Ascending (entries : List (String × α)) : Prop := entries.Pairwise fun a b => a.1 < b.1

theorem mem_of_mem_insert {entry : String × α} (member : entry ∈ insert key value entries) :
    entry = (key, value) ∨ entry ∈ entries := by
  induction entries with
  | nil => exact .inl (List.mem_singleton.1 member)
  | cons first entries ih =>
    unfold insert at member
    split at member
    · exact List.mem_cons.1 member
    · split at member
      · exact (List.mem_cons.1 member).imp_right (List.mem_cons_of_mem first)
      · rcases List.mem_cons.1 member with here | later
        · exact .inr (here ▸ List.mem_cons_self)
        · exact (ih later).imp_right (List.mem_cons_of_mem first)

theorem Ascending.insert (ascending : Ascending entries) :
    Ascending (insert key value entries) := by
  induction entries with
  | nil => exact List.pairwise_singleton _ _
  | cons first entries ih =>
    obtain ⟨above, later⟩ := List.pairwise_cons.1 ascending
    unfold Keyed.insert
    split
    · next before =>
      refine .cons (fun entry member => ?_) ascending
      rcases List.mem_cons.1 member with rfl | further
      · exact before
      · exact before.trans (above entry further)
    · next notBefore =>
      split
      · next same =>
        exact .cons (fun entry member => same ▸ above entry member) later
      · next different =>
        refine .cons (fun entry member => ?_) (ih later)
        rcases mem_of_mem_insert member with rfl | further
        · exact lt_of_le_of_ne (not_lt.1 notBefore) (Ne.symm different)
        · exact above entry further

theorem lookup_insert :
    (insert key value entries).lookup other =
      if other = key then some value else entries.lookup other := by
  induction entries with
  | nil => exact lookup_cons _ _ _
  | cons first entries ih =>
    rw [lookup_cons first, Keyed.insert]
    split
    · rw [lookup_cons, lookup_cons first]
    · split
      · next replaced =>
        rw [lookup_cons, ← replaced]
        by_cases same : other = key <;> simp [same]
      · next different =>
        rw [lookup_cons first, ih]
        by_cases same : other = first.1
        · simp [same, Ne.symm different]
        · simp [same]

theorem sort_concat (entries : List (String × α)) (entry : String × α) :
    sort (entries ++ [entry]) = insert entry.1 entry.2 (sort entries) := by
  simp [sort]

theorem ascending_sort (entries : List (String × α)) : Ascending (sort entries) := by
  induction entries using List.reverseRecOn with
  | nil => exact .nil
  | append_singleton entries entry ih =>
    rw [sort_concat]
    exact ih.insert

/-- Of the entries of one key the last one is kept. -/
theorem lookup_sort (entries : List (String × α)) (key : String) :
    (sort entries).lookup key = entries.reverse.lookup key := by
  induction entries using List.reverseRecOn with
  | nil => rfl
  | append_singleton entries entry ih =>
    rw [sort_concat, lookup_insert, ih, List.reverse_concat, lookup_cons]

theorem mem_of_mem_sort {entry : String × α} (member : entry ∈ sort entries) : entry ∈ entries := by
  induction entries using List.reverseRecOn with
  | nil => cases member
  | append_singleton entries last ih =>
    rw [sort_concat] at member
    rcases mem_of_mem_insert member with rfl | before
    · exact List.mem_append_right entries (List.mem_singleton_self _)
    · exact List.mem_append_left _ (ih before)

/-- Entries in ascending order are found by their keys. -/
theorem Ascending.lookup_eq_some_iff (ascending : Ascending entries) :
    entries.lookup key = some value ↔ (key, value) ∈ entries :=
  lookup_eq_some_iff_mem ascending

theorem sort_eq_sort_iff :
    sort entries = sort more ↔ ∀ key, entries.reverse.lookup key = more.reverse.lookup key := by
  constructor
  · intro same key
    rw [← lookup_sort, ← lookup_sort, same]
  · intro same
    refine eq_of_lookup_eq (ascending_sort entries) (ascending_sort more) fun key => ?_
    rw [lookup_sort, lookup_sort, same key]

theorem lookup_map_value (f : α → β) (entries : List (String × α)) (key : String) :
    (entries.map fun entry => (entry.1, f entry.2)).lookup key = (entries.lookup key).map f := by
  induction entries with
  | nil => rfl
  | cons entry entries ih =>
    rw [List.map_cons, lookup_cons, lookup_cons, ih]
    split <;> rfl

end Keyed

/-! ## Values -/

namespace Json

/-- What holds of a value if it holds of its items and of the values of its members, holds of every
value. -/
@[elab_as_elim]
theorem nestedInduction {motive : Json → Prop} (null : motive .null)
    (bool : ∀ value, motive (.bool value)) (number : ∀ value, motive (.number value))
    (text : ∀ value, motive (.text value))
    (array : ∀ items, (∀ item ∈ items, motive item) → motive (.array items))
    (object : ∀ members, (∀ member ∈ members, motive member.2) → motive (.object members)) :
    ∀ v, motive v
  | .null => null
  | .bool value => bool value
  | .number value => number value
  | .text value => text value
  | .array items => array items fun item _ =>
      nestedInduction null bool number text array object item
  | .object members => object members fun member _ =>
      nestedInduction null bool number text array object member.2
termination_by v => sizeOf v
decreasing_by
  · have smaller := List.sizeOf_lt_of_mem ‹item ∈ items›
    simp only [Json.array.sizeOf_spec]
    omega
  · have smaller := List.sizeOf_lt_of_mem ‹member ∈ members›
    rcases member with ⟨key, value⟩
    simp only [Json.object.sizeOf_spec, Prod.mk.sizeOf_spec] at smaller ⊢
    omega

/-- The value that an object with the members has for a key. -/
def member? (members : List (String × Json)) (key : String) : Option Json :=
  members.reverse.lookup key

/-- The values are the same, where objects are taken as maps: the order of members is of no account,
nor are members that a later one of the same key replaces. -/
inductive Same : Json → Json → Prop
  | null : Same .null .null
  | bool (value : Bool) : Same (.bool value) (.bool value)
  | number (value : Number) : Same (.number value) (.number value)
  | text (value : String) : Same (.text value) (.text value)
  | array {items others : List Json} :
    items.length = others.length →
    (∀ (i : Nat) item other, items[i]? = some item → others[i]? = some other → Same item other) →
    Same (.array items) (.array others)
  | object {members others : List (String × Json)} :
    (∀ key, (member? members key).isSome = (member? others key).isSome) →
    (∀ key value other, member? members key = some value → member? others key = some other →
      Same value other) →
    Same (.object members) (.object others)

variable {v w : Json} {items : List Json} {members : List (String × Json)}

theorem mem_of_member? {key : String} {value : Json} (found : member? members key = some value) :
    (key, value) ∈ members :=
  List.mem_reverse.1 (Keyed.mem_of_lookup_eq_some found)

theorem sortedItems_eq_map (items : List Json) : sortedItems items = items.map sorted := by
  induction items with
  | nil => rfl
  | cons item items ih => rw [sortedItems, ih, List.map_cons]

theorem sortedMembers_eq_map (members : List (String × Json)) :
    sortedMembers members = members.map fun member => (member.1, member.2.sorted) := by
  induction members with
  | nil => rfl
  | cons member members ih => rw [sortedMembers, ih, List.map_cons]

/-- Sorted members are found where the members were. -/
theorem lookup_sortedMembers (members : List (String × Json)) (key : String) :
    (sortedMembers members).reverse.lookup key = (member? members key).map sorted := by
  rw [sortedMembers_eq_map, ← List.map_reverse, Keyed.lookup_map_value, member?]

theorem Same.sorted_eq (same : v.Same w) : v.sorted = w.sorted := by
  induction same with
  | null => rfl
  | bool value => rfl
  | number value => rfl
  | text value => rfl
  | @array items others length _ each =>
    rw [sorted, sorted, sortedItems_eq_map, sortedItems_eq_map, array.injEq]
    apply List.ext_getElem?
    intro i
    rw [List.getElem?_map, List.getElem?_map]
    rcases Nat.lt_or_ge i items.length with within | beyond
    · have within' : i < others.length := length ▸ within
      have here := List.getElem?_eq_getElem within
      have there := List.getElem?_eq_getElem within'
      rw [here, there, Option.map_some, Option.map_some, each i _ _ here there]
    · rw [List.getElem?_eq_none beyond, List.getElem?_eq_none (length ▸ beyond)]
  | @object members others keys _ each =>
    rw [sorted, sorted, object.injEq, Keyed.sort_eq_sort_iff]
    intro key
    rw [lookup_sortedMembers, lookup_sortedMembers]
    have both := keys key
    cases here : member? members key with
    | none =>
      rw [here, Option.isSome_none, eq_comm, Option.isSome_eq_false_iff, Option.isNone_iff_eq_none]
        at both
      rw [both]
    | some value =>
      rw [here, Option.isSome_some, eq_comm, Option.isSome_iff_exists] at both
      obtain ⟨other, there⟩ := both
      rw [there, Option.map_some, Option.map_some, each key value other here there]

theorem same_array_of_sorted_eq {others : List Json}
    (each : ∀ item ∈ items, ∀ other : Json, item.sorted = other.sorted → item.Same other)
    (equal : (Json.array items).sorted = (Json.array others).sorted) :
    (Json.array items).Same (.array others) := by
  rw [sorted, sorted, sortedItems_eq_map, sortedItems_eq_map, array.injEq] at equal
  refine .array (by simpa using congrArg List.length equal) fun i item other here there => ?_
  have sorts := congrArg (·[i]?) equal
  simp only [List.getElem?_map, here, there, Option.map_some, Option.some.injEq] at sorts
  exact each item (List.mem_of_getElem? here) other sorts

theorem same_object_of_sorted_eq {others : List (String × Json)}
    (each : ∀ member ∈ members, ∀ other : Json, member.2.sorted = other.sorted →
      member.2.Same other)
    (equal : (Json.object members).sorted = (Json.object others).sorted) :
    (Json.object members).Same (.object others) := by
  rw [sorted, sorted, object.injEq, Keyed.sort_eq_sort_iff] at equal
  simp only [lookup_sortedMembers] at equal
  refine .object (fun key => ?_) fun key value other here there => ?_
  · simpa using congrArg Option.isSome (equal key)
  · have sorts := equal key
    rw [here, there, Option.map_some, Option.map_some, Option.some.injEq] at sorts
    exact each (key, value) (mem_of_member? here) other sorts

/-- Values that are sorted to one value are the same. -/
theorem same_of_sorted_eq (v : Json) : ∀ w : Json, v.sorted = w.sorted → v.Same w := by
  induction v using nestedInduction with
  | null =>
    intro w equal
    cases w <;> cases equal
    exact .null
  | bool value =>
    intro w equal
    cases w <;> cases equal
    exact .bool value
  | number value =>
    intro w equal
    cases w <;> cases equal
    exact .number value
  | text value =>
    intro w equal
    cases w <;> cases equal
    exact .text value
  | array items each =>
    intro w equal
    cases w with
    | array others => exact same_array_of_sorted_eq each equal
    | _ => cases equal
  | object members each =>
    intro w equal
    cases w with
    | object others => exact same_object_of_sorted_eq each equal
    | _ => cases equal

theorem same_iff_sorted_eq : v.Same w ↔ v.sorted = w.sorted :=
  ⟨Same.sorted_eq, same_of_sorted_eq v w⟩

end Json

end GrammarSearch
